import TypeFerry.Server.Validator

/-! # What `convertSchema` does

Once and for all: a schema that is converted is an object, a tuple in it is taken apart, and its members are
converted one by one. -/
namespace TypeFerry.Server.ValidatorSteps
open TypeFerry.Lib.Numeral TypeFerry.Lib.JsonText TypeFerry.Lib.OrderedMap TypeFerry.Lib.Schemas
open TypeFerry.Server.Validator

/-- The schemas, each at a place of its own. -/
def ConvertsTo (x y : Json) : Prop := ∃ path, convertSchema x path = .ok y

/-- What a member is converted to. -/
inductive Converted : Text → Json → Option (Text × Json) → Prop
  | dropped {key : Text} {x : Json} :
    key = js "$schema" ∨ key = js "~standard" ∨ key = js "readOnly" ∨ key = js "format" → Converted key x none
  | type {x y : Json} : convertJsonTypes x = .ok y → Converted (js "type") x (some (js "bsonType", y))
  | properties {ps qs : List (Text × Json)} : List.Forall₂ (fun p q => p.1 = q.1 ∧ ConvertsTo p.2 q.2) ps qs →
    Converted (js "properties") (.obj ps) (some (js "properties", .obj qs))
  | schema {key : Text} {ms : List (Text × Json)} {y : Json} :
    key = js "items" ∨ key = js "not" ∨ key = js "additionalProperties" → ConvertsTo (.obj ms) y →
    Converted key (.obj ms) (some (key, y))
  | combinator {key : Text} {xs ys : List Json} : key ∈ combinators → List.Forall₂ ConvertsTo xs ys →
    Converted key (.arr xs) (some (key, .arr ys))
  | additional {b : Bool} : Converted (js "additionalProperties") (.bool b)
    (some (js "additionalProperties", .bool b))
  | const {x : Json} : Converted (js "const") x (some (js "enum", .arr [x]))
  | copied {key : Text} {x : Json} : key ∈ BSON_SCHEMA_KEYS → key ≠ js "type" → key ≠ js "items" →
    key ≠ js "additionalProperties" → (key = js "properties" → isJsonObject x = false) →
    (key ∈ combinators → isArray x = false) → (key = js "not" → isJsonObject x = false) →
    Converted key x (some (key, x))

theorem bind_eq_ok {α β : Type} {x : Except Text α} {f : α → Except Text β} {b : β} :
    (x >>= f) = .ok b ↔ ∃ a, x = .ok a ∧ f a = .ok b := by
  cases x with
  | ok a =>
    refine ⟨fun h => ⟨a, rfl, h⟩, ?_⟩
    rintro ⟨_, ⟨⟩, h⟩
    exact h
  | error message =>
    refine iff_of_false (fun h => by cases h) ?_
    rintro ⟨_, ⟨⟩, -⟩

theorem mapM_eq_ok {α β : Type} {f : α → Except Text β} {xs : List α} {ys : List β} (h : xs.mapM f = .ok ys) :
    List.Forall₂ (fun x y => f x = .ok y) xs ys := by
  induction xs generalizing ys with
  | nil =>
    rw [List.mapM_nil] at h
    cases h
    exact .nil
  | cons x xs ih =>
    rw [List.mapM_cons, bind_eq_ok] at h
    obtain ⟨y, hy, h⟩ := h
    obtain ⟨zs, hzs, h⟩ := bind_eq_ok.mp h
    cases h
    exact .cons hy (ih hzs)

theorem convertItems_eq_ok {path : List Text} {xs ys : List Json}
    (h : convertItems path (xs.map convertSchema) = .ok ys) : List.Forall₂ ConvertsTo xs ys := by
  have hall := mapM_eq_ok h
  have hshift : ∀ (xs ys : List Json) (n : ℕ), List.Forall₂
      (fun item y => item.1 (path ++ [indexText item.2]) = .ok y)
      ((xs.map convertSchema).zipIdx n) ys → List.Forall₂ ConvertsTo xs ys := by
    intro xs
    induction xs with
    | nil =>
      intro ys n h
      cases h
      exact .nil
    | cons x xs ih =>
      intro ys n h
      rw [List.map_cons, List.zipIdx_cons] at h
      cases h with
      | cons hx h => exact .cons ⟨_, hx⟩ (ih _ _ h)
  exact hshift xs ys 0 hall

/-- What `convertSchema` gets of a member. -/
abbrev child : Json → Child := argument convertNode fun _ => notAnObject

theorem convertProperties_eq_ok {path : List Text} {ps qs : List (Text × Json)}
    (h : convertProperties path (ps.map fun p => (p.1, convertSchema p.2)) = .ok qs) :
    List.Forall₂ (fun p q => p.1 = q.1 ∧ ConvertsTo p.2 q.2) ps qs := by
  have hall := mapM_eq_ok h
  rw [List.forall₂_map_left_iff] at hall
  refine hall.imp fun p q hpq => ?_
  obtain ⟨y, hy, hq⟩ := bind_eq_ok.mp hpq
  cases hq
  exact ⟨rfl, _, hy⟩

theorem obj_of_isJsonObject {x : Json} (h : isJsonObject x = true) : ∃ ms, x = .obj ms := by
  cases x with
  | obj ms => exact ⟨ms, rfl⟩
  | _ => cases h

theorem arr_of_isArray {x : Json} (h : isArray x = true) : ∃ xs, x = .arr xs := by
  cases x with
  | arr xs => exact ⟨xs, rfl⟩
  | _ => cases h

theorem converted_of_ok {value : List (Text × Child)} {path : List Text} {key : Text} {x : Json}
    {o : Option (Text × Json)} (h : convertKeyword value path key (child x) = .ok o) : Converted key x o := by
  rw [convertKeyword, show (child x).json = x from rfl] at h
  by_cases hdropped : key = js "$schema" ∨ key = js "~standard"
  · rw [if_pos hdropped] at h
    cases h
    exact .dropped (hdropped.elim .inl fun h => .inr (.inl h))
  rw [if_neg hdropped] at h
  by_cases htype : key = js "type"
  · rw [if_pos htype] at h
    obtain ⟨y, hy, h⟩ := bind_eq_ok.mp h
    cases h
    exact htype ▸ .type hy
  rw [if_neg htype] at h
  by_cases hproperties : key = js "properties" ∧ isJsonObject x = true
  · rw [if_pos hproperties] at h
    obtain ⟨rfl, hx⟩ := hproperties
    obtain ⟨ps, rfl⟩ := obj_of_isJsonObject hx
    obtain ⟨qs, hqs, h⟩ := bind_eq_ok.mp h
    cases h
    exact .properties (convertProperties_eq_ok hqs)
  rw [if_neg hproperties] at h
  by_cases hitems : key = js "items"
  · rw [if_pos hitems] at h
    by_cases hx : isJsonObject x = true
    · rw [if_pos hx] at h
      obtain ⟨ms, rfl⟩ := obj_of_isJsonObject hx
      obtain ⟨y, hy, h⟩ := bind_eq_ok.mp h
      cases h
      exact .schema (.inl hitems) ⟨_, hy⟩
    · rw [if_neg hx] at h
      cases h
  rw [if_neg hitems] at h
  by_cases hcombinator : key ∈ combinators ∧ isArray x = true
  · rw [if_pos hcombinator] at h
    obtain ⟨hkey, hx⟩ := hcombinator
    obtain ⟨xs, rfl⟩ := arr_of_isArray hx
    obtain ⟨ys, hys, h⟩ := bind_eq_ok.mp h
    cases h
    exact .combinator hkey (convertItems_eq_ok hys)
  rw [if_neg hcombinator] at h
  by_cases hnot : key = js "not" ∧ isJsonObject x = true
  · rw [if_pos hnot] at h
    obtain ⟨hkey, hx⟩ := hnot
    obtain ⟨ms, rfl⟩ := obj_of_isJsonObject hx
    obtain ⟨y, hy, h⟩ := bind_eq_ok.mp h
    cases h
    exact .schema (.inr (.inl hkey)) ⟨_, hy⟩
  rw [if_neg hnot] at h
  by_cases hadditional : key = js "additionalProperties"
  · rw [if_pos hadditional] at h
    subst hadditional
    cases x with
    | bool b =>
      cases h
      exact .additional
    | obj ms =>
      obtain ⟨y, hy, h⟩ := bind_eq_ok.mp h
      cases h
      exact .schema (.inr (.inr rfl)) ⟨_, hy⟩
    | _ => cases h
  rw [if_neg hadditional] at h
  by_cases hconst : key = js "const"
  · rw [if_pos hconst] at h
    cases h
    exact hconst ▸ .const
  rw [if_neg hconst] at h
  by_cases hreadOnly : key = js "readOnly"
  · rw [if_pos hreadOnly] at h
    cases h
    exact .dropped (.inr (.inr (.inl hreadOnly)))
  rw [if_neg hreadOnly] at h
  by_cases hformat : key = js "format"
  · rw [if_pos hformat] at h
    cases o with
    | none => exact .dropped (.inr (.inr (.inr hformat)))
    | some y => split at h <;> cases h
  rw [if_neg hformat] at h
  by_cases hcopied : key ∈ BSON_SCHEMA_KEYS
  · rw [if_pos hcopied] at h
    cases h
    refine .copied hcopied htype hitems hadditional ?_ ?_ ?_
    · exact fun h => Bool.eq_false_iff.mpr fun hx => hproperties ⟨h, hx⟩
    · exact fun h => Bool.eq_false_iff.mpr fun hx => hcombinator ⟨h, hx⟩
    · exact fun h => Bool.eq_false_iff.mpr fun hx => hnot ⟨h, hx⟩
  · rw [if_neg hcopied] at h
    cases h

/-! ## A schema -/

/-- A schema without a tuple is converted as it is. The items of a tuple are all converted to what those after them are. -/
inductive Normalized : List (Text × Json) → List (Text × Json) → Prop
  | same {ms : List (Text × Json)} : (∀ xs, lookup (js "items") ms ≠ some (.arr xs)) → Normalized ms ms
  | tuple {ms rs : List (Text × Json)} {xs ys : List Json} {rest : Json} : lookup (js "items") ms = some (.arr xs) →
    lookup (js "additionalItems") ms = some (.obj rs) → ConvertsTo (.obj rs) rest → List.Forall₂ ConvertsTo xs ys →
    (∀ y ∈ ys, deepEqual y rest = true) →
    Normalized ms ((put (js "minItems") (.num (ofInt ys.length)) (put (js "items") (.obj rs) ms)).filter
      fun m => m.1 ≠ js "additionalItems")

/-- The members of a schema as `convertSchema` gets them. -/
def children (ms : List (Text × Json)) : List (Text × Child) := ms.map fun m => (m.1, child m.2)

theorem normalized_of_ok {ms : List (Text × Json)} {path : List Text} {value : List (Text × Child)}
    (h : normalizeHomogeneousVariadicTuple (children ms) path = .ok value) :
    ∃ ns, value = children ns ∧ Normalized ms ns := by
  rw [normalizeHomogeneousVariadicTuple, children, lookup_members] at h
  cases hitems : lookup (js "items") ms with
  | none =>
    rw [hitems] at h
    cases h
    exact ⟨ms, rfl, .same fun xs hxs => by rw [hitems] at hxs; cases hxs⟩
  | some items =>
    rw [hitems, Option.map_some] at h
    dsimp only at h
    by_cases harr : isArray items = true
    · rw [show (child items).json = items from rfl, if_pos harr, lookup_members] at h
      obtain ⟨xs, rfl⟩ := arr_of_isArray harr
      cases hadditional : lookup (js "additionalItems") ms with
      | none =>
        rw [hadditional] at h
        cases h
      | some additionalItems =>
        rw [hadditional, Option.map_some] at h
        dsimp only at h
        by_cases hobj : isJsonObject additionalItems = true
        · rw [show (child additionalItems).json = additionalItems from rfl, if_pos hobj] at h
          obtain ⟨rs, rfl⟩ := obj_of_isJsonObject hobj
          obtain ⟨rest, hrest, h⟩ := bind_eq_ok.mp h
          obtain ⟨ys, hys, h⟩ := bind_eq_ok.mp h
          by_cases hall : (ys.all fun item => isDeepStrictEqual item rest) = true
          · rw [if_pos hall] at h
            cases h
            refine ⟨_, ?_, .tuple hitems hadditional ⟨_, hrest⟩ (convertItems_eq_ok hys) (List.all_eq_true.mp hall)⟩
            rw [children, ← filter_members, ← put_members, ← put_members]
            rfl
          · rw [if_neg hall] at h
            cases h
        · rw [show (child additionalItems).json = additionalItems from rfl, if_neg hobj] at h
          cases h
    · rw [show (child items).json = items from rfl, if_neg harr] at h
      cases h
      refine ⟨ms, rfl, .same fun xs hxs => harr ?_⟩
      rw [hitems] at hxs
      cases hxs
      rfl

/-- A schema that is converted is an object, and its members are converted one by one. -/
theorem converted_schema {s t : Json} (h : ConvertsTo s t) : ∃ ms ns assigned, s = .obj ms ∧ Normalized ms ns ∧
    List.Forall₂ (fun m o => Converted m.1 m.2 o) ns assigned ∧
    t = .obj ((assigned.filterMap id).foldl (fun result m => put m.1 m.2 result) []) := by
  obtain ⟨path, h⟩ := h
  cases s with
  | obj ms =>
    rw [convertSchema, fold_obj, convertNode] at h
    by_cases hempty : (ms.map fun m => (m.1, child m.2)).isEmpty = true
    · rw [if_pos hempty] at h
      cases h
    rw [if_neg hempty] at h
    obtain ⟨value, hvalue, hnode⟩ := bind_eq_ok.mp h
    obtain ⟨assigned, hassigned, hresult⟩ := bind_eq_ok.mp hnode
    obtain ⟨ns, rfl, hnormalized⟩ := normalized_of_ok hvalue
    have hconverted := mapM_eq_ok hassigned
    rw [children, List.forall₂_map_left_iff] at hconverted
    refine ⟨ms, ns, assigned, rfl, hnormalized, hconverted.imp fun m o hm => converted_of_ok hm, ?_⟩
    dsimp only at hresult
    split at hresult <;> cases hresult
    rfl
  | _ => cases h

theorem nodup_normalized {ms ns : List (Text × Json)} (h : Normalized ms ns) (hms : (ms.map Prod.fst).Nodup) :
    (ns.map Prod.fst).Nodup := by
  cases h with
  | same => exact hms
  | tuple => exact (List.filter_sublist.map Prod.fst).nodup (nodup_put (nodup_put hms))

/-! ## The names of the members -/

/-- The name under which a member is assigned to the result. -/
def assignedKey (key : Text) : Text :=
  if key = js "type" then js "bsonType" else if key = js "const" then js "enum" else key

theorem key_of_converted {key : Text} {x : Json} {r : Text × Json} (h : Converted key x (some r)) :
    r.1 = assignedKey key := by
  cases h with
  | type => rfl
  | properties => rfl
  | schema hkey => rcases hkey with rfl | rfl | rfl <;> rfl
  | combinator hkey =>
    simp only [combinators, List.mem_cons, List.not_mem_nil, or_false] at hkey
    rcases hkey with rfl | rfl | rfl <;> rfl
  | additional => rfl
  | const => rfl
  | copied hkey htype =>
    rw [assignedKey, if_neg htype, if_neg]
    rintro rfl
    revert hkey
    decide

/-- No two members are assigned under one name. -/
structure Single (ns : List (Text × Json)) : Prop where
  nodup : (ns.map Prod.fst).Nodup
  type : ¬ (js "type" ∈ ns.map Prod.fst ∧ js "bsonType" ∈ ns.map Prod.fst)
  const : ¬ (js "const" ∈ ns.map Prod.fst ∧ js "enum" ∈ ns.map Prod.fst)

theorem Single.inj {ns : List (Text × Json)} (h : Single ns) {k k' : Text} (hk : k ∈ ns.map Prod.fst)
    (hk' : k' ∈ ns.map Prod.fst) (heq : assignedKey k = assignedKey k') : k = k' := by
  have hne : js "bsonType" ≠ js "enum" := by decide
  rw [assignedKey, assignedKey] at heq
  split at heq
  · next ht =>
    split at heq
    · next ht' => rw [ht, ht']
    · split at heq
      · exact absurd heq hne
      · exact absurd ⟨ht ▸ hk, heq ▸ hk'⟩ h.type
  · split at heq
    · next hc =>
      split at heq
      · exact absurd heq.symm hne
      · split at heq
        · next hc' => rw [hc, hc']
        · exact absurd ⟨hc ▸ hk, heq ▸ hk'⟩ h.const
    · split at heq
      · next ht' => exact absurd ⟨ht' ▸ hk', heq ▸ hk⟩ h.type
      · split at heq
        · next hc' => exact absurd ⟨hc' ▸ hk', heq ▸ hk⟩ h.const
        · exact heq

theorem filterMap_some {α : Type} (a : α) (as : List (Option α)) :
    (some a :: as).filterMap id = a :: as.filterMap id := rfl

section
variable {ns : List (Text × Json)} {assigned : List (Option (Text × Json))}

theorem keys_sublist (h : List.Forall₂ (fun m o => Converted m.1 m.2 o) ns assigned) :
    List.Sublist ((assigned.filterMap id).map Prod.fst) ((ns.map Prod.fst).map assignedKey) := by
  induction h with
  | nil => exact .slnil
  | @cons m o ns assigned hm _ ih =>
    cases o with
    | none => exact .cons _ ih
    | some r =>
      rw [filterMap_some, List.map_cons, List.map_cons, List.map_cons, key_of_converted hm]
      exact .cons_cons _ ih

theorem Single.nodup_assigned (h : Single ns) (hall : List.Forall₂ (fun m o => Converted m.1 m.2 o) ns assigned) :
    ((assigned.filterMap id).map Prod.fst).Nodup :=
  (keys_sublist hall).nodup (List.Nodup.map_on (fun _ hk _ hk' heq => h.inj hk hk' heq) h.nodup)

theorem lookup_assigned {R : Json → Json → Prop} {k : Text} (htype : k ≠ js "bsonType") (hconst : k ≠ js "enum")
    (hk : ∀ x o, Converted k x o → ∃ y, o = some (k, y) ∧ R x y)
    (h : List.Forall₂ (fun m o => Converted m.1 m.2 o) ns assigned) :
    Option.Rel R (lookup k ns) (lookup k (assigned.filterMap id)) := by
  induction h with
  | nil => exact .none
  | @cons m o ns assigned hm _ ih =>
    obtain ⟨k', x⟩ := m
    rw [lookup]
    split
    · next heq =>
      subst heq
      obtain ⟨y, rfl, hxy⟩ := hk x o hm
      rw [filterMap_some, lookup, if_pos rfl]
      exact .some hxy
    · next hne =>
      cases o with
      | none => exact ih
      | some r =>
        obtain ⟨k₂, y⟩ := r
        have hkey : k₂ = assignedKey k' := key_of_converted hm
        have hother : k₂ ≠ k := by
          rw [hkey, assignedKey]
          split
          · exact htype.symm
          · split
            · exact hconst.symm
            · exact hne
        rw [filterMap_some, lookup, if_neg hother]
        exact ih

end

end TypeFerry.Server.ValidatorSteps
