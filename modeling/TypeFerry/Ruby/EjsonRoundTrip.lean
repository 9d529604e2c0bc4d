import TypeFerry.Ejson.Base64
import TypeFerry.Ruby.Ejson

/-! # Ruby: what is written is read back

A tree comes back unless one of its hashes has the keys of a tag in the other order, or its
document is nested too deep for `JSON.parse`. -/
namespace TypeFerry.Ruby.EjsonRoundTrip
open TypeFerry.Lib.Unicode TypeFerry.Ruby.Ejson

-- The equations are made here, before the many proofs that ask for them side by side.
section
attribute [local simp] fromJsonValue fromJsonItems fromJsonFields fromEscaped fromMember toJsonValue toJsonItems toJsonFields
  canonicalize canonicalizeItems canonicalizeFields nesting nestingItems nestingFields
end

variable {F Text : Type} (P : Platform F Text) (canonical : Bool)

/-! ## Trees -/

mutual

/-- The trees that applications write. -/
def Tree : Value F → Prop
  | .nil | .bool _ | .int _ | .float (.finite _) | .string _ | .date _ | .binary _ => True
  | .regexp _ flags => firstFlags [] (flags.take 50) = flags
  | .array items => TreeItems items
  | .hash fields => (fields.map Prod.fst).Nodup ∧ TreeFields fields
  | _ => False

def TreeItems : List (Value F) → Prop
  | [] => True
  | item :: items => Tree item ∧ TreeItems items

def TreeFields : List (Str × Value F) → Prop
  | [] => True
  | (_, value) :: fields => Tree value ∧ TreeFields fields

end

mutual

/-- `==`: the order of the keys does not matter. -/
def Equal : Value F → Value F → Prop
  | .array items, .array items' => EqualItems items items'
  | .hash fields, .hash fields' => fields.length = fields'.length ∧ EqualFields fields fields'
  | .custom typeName value, .custom typeName' value' => typeName = typeName' ∧ Equal value value'
  | value, value' => value = value'

def EqualItems : List (Value F) → List (Value F) → Prop
  | [], [] => True
  | item :: items, item' :: items' => Equal item item' ∧ EqualItems items items'
  | _, _ => False

def EqualFields : List (Str × Value F) → List (Str × Value F) → Prop
  | [], _ => True
  | (key, value) :: fields, fields' =>
    (∃ field ∈ fields', field.1 = key ∧ Equal value field.2) ∧ EqualFields fields fields'

end

/-- The keys of a tag, in the order in which the writer does not take them for one. -/
def reversed {α : Type} (fields : List (Str × α)) : Bool :=
  fields.map Prod.fst = [str "$flags", str "$regexp"] || fields.map Prod.fst = [str "$value", str "$type"]

mutual

/-- No hash has reversed keys. -/
def Unreversed : Value F → Prop
  | .array items => UnreversedItems items
  | .hash fields => reversed fields = false ∧ UnreversedFields fields
  | _ => True

def UnreversedItems : List (Value F) → Prop
  | [] => True
  | item :: items => Unreversed item ∧ UnreversedItems items

def UnreversedFields : List (Str × Value F) → Prop
  | [] => True
  | (_, value) :: fields => Unreversed value ∧ UnreversedFields fields

end

mutual

/-- A hash that looks like a tag is written inside of another one. -/
def depth : Value F → ℕ
  | .date _ | .regexp _ _ | .binary _ => 1
  | .array items => 1 + depthItems items
  | .hash fields => 1 + (if tagShape fields then 1 + depthFields fields else depthFields fields)
  | _ => 0

def depthItems : List (Value F) → ℕ
  | [] => 0
  | item :: items => max (depth item) (depthItems items)

def depthFields : List (Str × Value F) → ℕ
  | [] => 0
  | (_, value) :: fields => max (depth value) (depthFields fields)

end

/-- What comes back. -/
structure Faithful (value : Value F) : Prop where
  unreversed : Unreversed value
  shallow : depth value ≤ maxNesting

def RoundTrips (customFactories : Str → Option (Value F → Except Error (Value F))) (value : Value F) : Prop :=
  ∃ value', parse P customFactories (stringify P canonical value) = .ok value' ∧ Equal value' value

/-- Custom types are objects of their own, not hashes. -/
def NoHash (customFactories : Str → Option (Value F → Except Error (Value F))) : Prop :=
  ∀ name factory value fields, customFactories name = some factory → factory value ≠ .ok (.hash fields)

mutual

/-- Hashes with distinct keys. -/
def Distinct : Json F → Prop
  | .array items => DistinctItems items
  | .hash fields => (fields.map Prod.fst).Nodup ∧ DistinctFields fields
  | _ => True

def DistinctItems : List (Json F) → Prop
  | [] => True
  | item :: items => Distinct item ∧ DistinctItems items

def DistinctFields : List (Str × Json F) → Prop
  | [] => True
  | (_, value) :: fields => Distinct value ∧ DistinctFields fields

end

/-- The libraries read what they write; base64 comes in groups of four and has no URL-safe
characters. -/
structure Standard (P : Platform F Text) : Prop where
  read : ∀ document, Distinct document → P.read (P.generate document) = some document
  integer : ∀ n, P.Integer (.int n) = .ok n
  string : ∀ s, P.String (.string s) = s
  decode : ∀ bytes, P.strictDecode64 (P.strictEncode64 bytes) = some bytes
  length : ∀ bytes, (P.strictEncode64 bytes).length % 4 = 0
  alphabet : ∀ bytes, ∀ c ∈ P.strictEncode64 bytes, c ≠ '-' ∧ c ≠ '_'

section
variable {P canonical} {customFactories : Str → Option (Value F → Except Error (Value F))}

/-! ## The document of a tree -/

theorem toJsonItems_eq_map : ∀ items : List (Value F), toJsonItems P items = items.map (toJsonValue P)
  | [] => rfl
  | item :: items => by rw [toJsonItems, toJsonItems_eq_map items, List.map_cons]

theorem toJsonFields_eq_map : ∀ fields : List (Str × Value F),
    toJsonFields P fields = fields.map fun field => (field.1, toJsonValue P field.2)
  | [] => rfl
  | (_, _) :: fields => by rw [toJsonFields, toJsonFields_eq_map fields, List.map_cons]

theorem canonicalizeItems_eq_map : ∀ items : List (Json F), canonicalizeItems items = items.map canonicalize
  | [] => rfl
  | item :: items => by rw [canonicalizeItems, canonicalizeItems_eq_map items, List.map_cons]

theorem canonicalizeFields_eq_map : ∀ fields : List (Str × Json F),
    canonicalizeFields fields = fields.map fun field => (field.1, canonicalize field.2)
  | [] => rfl
  | (_, _) :: fields => by rw [canonicalizeFields, canonicalizeFields_eq_map fields, List.map_cons]

variable (P canonical) in
/-- What `JSON.generate` is given. -/
def document (value : Value F) : Json F :=
  if canonical then canonicalize (toJsonValue P value) else toJsonValue P value

theorem document_array (items : List (Value F)) :
    document P canonical (.array items) = .array (items.map (document P canonical)) := by
  cases canonical with
  | false => simp only [document, toJsonValue, toJsonItems_eq_map]; rfl
  | true =>
    simp only [document, toJsonValue, if_true, canonicalize, toJsonItems_eq_map, canonicalizeItems_eq_map,
      List.map_map]
    rfl

variable (P canonical) in
/-- The members of a hash, as they are written. -/
def members (fields : List (Str × Value F)) : List (Str × Json F) :=
  inOrder canonical (fields.map fun field => (field.1, document P canonical field.2))

theorem document_hash (fields : List (Str × Value F)) :
    document P canonical (.hash fields) =
      if tagShape fields then .hash [(str "$escape", .hash (members P canonical fields))]
      else .hash (members P canonical fields) := by
  cases canonical with
  | false =>
    simp only [document, toJsonValue, toJsonFields_eq_map, members, inOrder]
    rfl
  | true =>
    have hmembers : canonicalize (.hash (toJsonFields P fields)) = .hash (members P true fields) := by
      simp only [canonicalize, toJsonFields_eq_map, canonicalizeFields_eq_map, List.map_map, members, inOrder,
        if_true]
      rfl
    rw [document, if_pos rfl, toJsonValue]
    split
    · rw [canonicalize, canonicalizeFields, hmembers]
      rfl
    · exact hmembers

theorem document_date (n : ℤ) : document P canonical (.date n) = .hash [(str "$date", .int n)] := by
  cases canonical <;> rfl

theorem document_binary (bytes : List UInt8) :
    document P canonical (.binary bytes) = .hash [(str "$binary", .string (P.strictEncode64 bytes))] := by
  cases canonical <;> rfl

theorem document_regexp (source flags : Str) : document P canonical (.regexp source flags) =
    .hash (inOrder canonical [(str "$regexp", .string source), (str "$flags", .string flags)]) := by
  cases canonical <;> rfl

theorem members_perm (fields : List (Str × Value F)) :
    ((members P canonical fields).map Prod.fst).Perm (fields.map Prod.fst) := by
  refine ((inOrder_perm _).map Prod.fst).trans ?_
  rw [List.map_map]
  exact .refl _

/-! ## Keys -/

theorem exactKeys_perm {α β : Type} {fields : List (Str × α)} {fields' : List (Str × β)}
    (h : (fields.map Prod.fst).Perm (fields'.map Prod.fst)) (keys : List Str) :
    exactKeys fields keys = exactKeys fields' keys := by
  have hlength := h.length_eq
  rw [List.length_map, List.length_map] at hlength
  simp only [exactKeys, hlength, h.mem_iff]

theorem exactKeys_one {α : Type} {fields : List (Str × α)} {key : Str} (h : exactKeys fields [key] = true) :
    fields.map Prod.fst = [key] := by
  simp only [exactKeys, List.length_singleton, List.all_cons, List.all_nil, Bool.and_true, Bool.and_eq_true,
    decide_eq_true_eq] at h
  obtain ⟨field, rfl⟩ := List.length_eq_one_iff.mp h.1
  have hkey := h.2
  rw [List.map_singleton, List.mem_singleton] at hkey
  rw [List.map_singleton, hkey]

theorem exactKeys_two {α : Type} {fields : List (Str × α)} {key key' : Str} (hne : key ≠ key')
    (h : exactKeys fields [key, key'] = true) :
    fields.map Prod.fst = [key, key'] ∨ fields.map Prod.fst = [key', key] := by
  simp only [exactKeys, List.length_cons, List.length_nil, List.all_cons, List.all_nil, Bool.and_true,
    Bool.and_eq_true, decide_eq_true_eq] at h
  obtain ⟨field, field', rfl⟩ := List.length_eq_two.mp h.1
  have hkeys := h.2
  simp only [List.map_cons, List.map_nil, List.mem_cons, List.not_mem_nil, or_false] at hkeys
  simp only [List.map_cons, List.map_nil, List.cons.injEq, and_true]
  rcases hkeys with ⟨hkey | hkey, hkey' | hkey'⟩
  · exact absurd (hkey.trans hkey'.symm) hne
  · exact .inl ⟨hkey.symm, hkey'.symm⟩
  · exact .inr ⟨hkey'.symm, hkey.symm⟩
  · exact absurd (hkey.trans hkey'.symm) hne

/-- Neither the writer nor the reader takes the hash for a tag. -/
theorem convertJson_none {fields : List (Str × Value F)} {fields' : List (Str × Json F)}
    (hkeys : (fields'.map Prod.fst).Perm (fields.map Prod.fst)) (htag : tagShape fields = false)
    (hreversed : reversed fields = false) (escaped value : Except Error (Value F)) :
    convertJson P customFactories fields' escaped value = none := by
  have hshape : fields.map Prod.fst ∉ TAG_KEYS := of_decide_eq_false htag
  simp only [TAG_KEYS, List.mem_cons, List.not_mem_nil, or_false, not_or] at hshape
  simp only [reversed, Bool.or_eq_false_iff, decide_eq_false_iff_not] at hreversed
  have hone : ∀ key, fields.map Prod.fst ≠ [key] → exactKeys fields' [key] = false := fun key hne => by
    rw [exactKeys_perm hkeys]
    exact Bool.eq_false_iff.mpr fun h => hne (exactKeys_one h)
  have htwo : ∀ key key', key ≠ key' → fields.map Prod.fst ≠ [key, key'] → fields.map Prod.fst ≠ [key', key] →
      exactKeys fields' [key, key'] = false := fun key key' hkey hne hne' => by
    rw [exactKeys_perm hkeys]
    exact Bool.eq_false_iff.mpr fun h => (exactKeys_two hkey h).elim hne hne'
  obtain ⟨hdate, hregexp, hinfnan, hbinary, hescape, htype⟩ := hshape
  rw [convertJson, hone _ hdate, htwo _ _ (by decide) hregexp hreversed.1, hone _ hinfnan, hone _ hbinary,
    hone _ hescape, htwo _ _ (by decide) htype hreversed.2]
  rfl

/-! ## Reading -/

theorem fromJsonItems_map {α : Type} (g : α → Json F) (g' : α → Value F) : ∀ items : List α,
    (∀ item ∈ items, fromJsonValue P customFactories (g item) = .ok (g' item)) →
    fromJsonItems P customFactories (items.map g) = .ok (items.map g')
  | [], _ => rfl
  | item :: items, h => by
    rw [List.map_cons, fromJsonItems, h item (List.mem_cons_self ..)]
    show (fromJsonItems P customFactories _ >>= fun rest => Except.ok (g' item :: rest)) = _
    rw [fromJsonItems_map g g' items fun item hin => h item (List.mem_cons_of_mem _ hin)]
    rfl

theorem fromJsonFields_map {α : Type} (g : α → Json F) (g' : α → Value F) : ∀ fields : List (Str × α),
    (∀ field ∈ fields, fromJsonValue P customFactories (g field.2) = .ok (g' field.2)) →
    fromJsonFields P customFactories (fields.map fun field => (field.1, g field.2)) =
      .ok (fields.map fun field => (field.1, g' field.2))
  | [], _ => rfl
  | field :: fields, h => by
    rw [List.map_cons, fromJsonFields, h field (List.mem_cons_self ..)]
    show (fromJsonFields P customFactories _ >>= fun rest => Except.ok ((field.1, g' field.2) :: rest)) = _
    rw [fromJsonFields_map g g' fields fun field hin => h field (List.mem_cons_of_mem _ hin)]
    rfl

theorem fromJsonItems_cons {item : Json F} {items : List (Json F)} {values : List (Value F)}
    (h : fromJsonItems P customFactories (item :: items) = .ok values) :
    ∃ value rest, values = value :: rest ∧ fromJsonValue P customFactories item = .ok value ∧
      fromJsonItems P customFactories items = .ok rest := by
  rw [fromJsonItems] at h
  cases hitem : fromJsonValue P customFactories item with
  | error e => rw [hitem] at h; cases h
  | ok value =>
    cases hitems : fromJsonItems P customFactories items with
    | error e => rw [hitem, hitems] at h; cases h
    | ok rest =>
      rw [hitem, hitems] at h
      exact ⟨value, rest, (Except.ok.inj h).symm, rfl, rfl⟩

theorem fromJsonFields_ok : ∀ {fields : List (Str × Json F)} {values : List (Str × Value F)},
    fromJsonFields P customFactories fields = .ok values →
    ∀ field ∈ fields, ∃ value, (field.1, value) ∈ values ∧ fromJsonValue P customFactories field.2 = .ok value
  | [], _, _ => fun field hin => by cases hin
  | (key, document) :: fields, values, h => fun field hin => by
    rw [fromJsonFields] at h
    cases hfield : fromJsonValue P customFactories document with
    | error e => rw [hfield] at h; cases h
    | ok value =>
      cases hfields : fromJsonFields P customFactories fields with
      | error e => rw [hfield, hfields] at h; cases h
      | ok rest =>
        rw [hfield, hfields] at h
        obtain rfl := Except.ok.inj h
        rcases List.mem_cons.mp hin with rfl | hin
        · exact ⟨value, List.mem_cons_self .., hfield⟩
        · obtain ⟨value', hmem, hvalue⟩ := fromJsonFields_ok hfields field hin
          exact ⟨value', List.mem_cons_of_mem _ hmem, hvalue⟩

theorem fromJsonValue_escape (inner : List (Str × Json F)) :
    fromJsonValue P customFactories (.hash [(str "$escape", .hash inner)]) =
      (fromJsonFields P customFactories inner).map .hash := by
  rw [fromJsonValue]
  rfl

/-- A hash that is not a tag, written and read. -/
theorem fromJsonValue_members {fields : List (Str × Value F)} (hreversed : reversed fields = false) :
    fromJsonValue P customFactories (document P canonical (.hash fields)) =
      (fromJsonFields P customFactories (members P canonical fields)).map .hash := by
  rw [document_hash]
  cases htag : tagShape fields with
  | true => exact fromJsonValue_escape _
  | false =>
    rw [if_neg Bool.false_ne_true, fromJsonValue]
    rw [convertJson_none (members_perm fields) htag hreversed]
    split <;> rfl

theorem members_regexp (flags source : Value F) :
    members P canonical [(str "$flags", flags), (str "$regexp", source)] =
      [(str "$flags", document P canonical flags), (str "$regexp", document P canonical source)] := by
  cases canonical <;> rfl

theorem fromJsonValue_regexp (flags source : Json F) :
    fromJsonValue P customFactories (.hash [(str "$flags", flags), (str "$regexp", source)]) =
      .ok (.regexp (P.String source) (sanitizeFlags P flags)) := by
  rw [fromJsonValue]
  rfl

theorem fromJsonValue_type (value typeName : Value F) :
    fromJsonValue P customFactories
      (.hash (members P canonical [(str "$value", value), (str "$type", typeName)])) =
      match customFactories (P.String (document P canonical typeName)) with
      | some factory => fromJsonValue P customFactories (document P canonical value) >>= factory
      | none => .error (.argumentError ("Custom EJSON type " ++
          String.ofList (P.String (document P canonical typeName)) ++ " is not defined")) := by
  cases canonical with
  | false =>
    show fromJsonValue P customFactories (.hash [(str "$value", _), (str "$type", _)]) = _
    rw [fromJsonValue]
    rfl
  | true =>
    show fromJsonValue P customFactories (.hash [(str "$type", _), (str "$value", _)]) = _
    rw [fromJsonValue]
    rfl

/-- A hash with reversed keys is taken for a tag. -/
theorem fromJsonValue_reversed (hcustom : NoHash customFactories) {fields : List (Str × Value F)}
    (hreversed : reversed fields = true) {value : Value F}
    (h : fromJsonValue P customFactories (document P canonical (.hash fields)) = .ok value) :
    ∀ fields', value ≠ .hash fields' := by
  simp only [reversed, Bool.or_eq_true, decide_eq_true_eq, List.map_eq_cons_iff, List.map_eq_nil_iff] at hreversed
  rw [document_hash] at h
  rcases hreversed with ⟨⟨_, flags⟩, _, rfl, rfl, ⟨_, source⟩, _, rfl, rfl, rfl⟩ |
    ⟨⟨_, inner⟩, _, rfl, rfl, ⟨_, typeName⟩, _, rfl, rfl, rfl⟩
  · rw [if_neg (by simp [tagShape]; decide), members_regexp, fromJsonValue_regexp] at h
    obtain rfl := Except.ok.inj h
    exact fun fields' heq => by cases heq
  · rw [if_neg (by simp [tagShape]; decide), fromJsonValue_type] at h
    cases hfactory : customFactories (P.String (document P canonical typeName)) with
    | none => rw [hfactory] at h; cases h
    | some factory =>
      rw [hfactory] at h
      cases hinner : fromJsonValue P customFactories (document P canonical inner) with
      | error e => rw [hinner] at h; cases h
      | ok inner' =>
        rw [hinner] at h
        rintro fields' rfl
        exact hcustom _ factory inner' fields' hfactory h

/-! ## Equality -/

theorem equalFields_iff {fields' : List (Str × Value F)} : ∀ {fields : List (Str × Value F)},
    EqualFields fields fields' ↔ ∀ field ∈ fields, ∃ field' ∈ fields', field'.1 = field.1 ∧ Equal field.2 field'.2
  | [] => by simp [EqualFields]
  | (key, value) :: fields => by simp [EqualFields, @equalFields_iff _ fields]

variable (canonical) in
mutual

/-- In canonical text the keys of every hash are sorted. -/
def ordered : Value F → Value F
  | .array items => .array (orderedItems items)
  | .hash fields => .hash (inOrder canonical (orderedFields fields))
  | .custom typeName value => .custom typeName (ordered value)
  | value => value

def orderedItems : List (Value F) → List (Value F)
  | [] => []
  | item :: items => ordered item :: orderedItems items

def orderedFields : List (Str × Value F) → List (Str × Value F)
  | [] => []
  | (key, value) :: fields => (key, ordered value) :: orderedFields fields

end

theorem orderedItems_eq_map : ∀ items : List (Value F), orderedItems canonical items = items.map (ordered canonical)
  | [] => rfl
  | item :: items => by rw [orderedItems, orderedItems_eq_map items, List.map_cons]

theorem orderedFields_eq_map : ∀ fields : List (Str × Value F),
    orderedFields canonical fields = fields.map fun field => (field.1, ordered canonical field.2)
  | [] => rfl
  | (_, _) :: fields => by rw [orderedFields, orderedFields_eq_map fields, List.map_cons]

mutual

theorem equal_ordered : ∀ value : Value F, Equal (ordered canonical value) value
  | .nil | .bool _ | .int _ | .float _ | .string _ | .date _ | .time _ | .regexp _ _ | .pattern _ _ _ | .binary _ => rfl
  | .custom _ value => ⟨rfl, equal_ordered value⟩
  | .array items => equal_orderedItems items
  | .hash fields => by
    rw [ordered, Equal, equalFields_iff, orderedFields_eq_map]
    refine ⟨(inOrder_perm _).length_eq.trans (List.length_map _), fun field hin => ?_⟩
    obtain ⟨field', hin', rfl⟩ := List.mem_map.mp ((inOrder_perm _).mem_iff.mp hin)
    exact ⟨field', hin', rfl, equal_orderedFields fields field' hin'⟩

theorem equal_orderedItems : ∀ items : List (Value F), EqualItems (orderedItems canonical items) items
  | [] => trivial
  | item :: items => ⟨equal_ordered item, equal_orderedItems items⟩

theorem equal_orderedFields : ∀ fields : List (Str × Value F),
    ∀ field ∈ fields, Equal (ordered canonical field.2) field.2
  | [] => fun field hin => by cases hin
  | (key, value) :: fields => fun field hin => by
    rcases List.mem_cons.mp hin with rfl | hin
    · exact equal_ordered value
    · exact equal_orderedFields fields field hin

end

/-! ## A tree without reversed keys comes back -/

theorem Standard.tr (hP : Standard P) (bytes : List UInt8) :
    (P.strictEncode64 bytes).map tr = P.strictEncode64 bytes := by
  refine (List.map_congr_left fun c hc => ?_).trans (List.map_id _)
  obtain ⟨hminus, hunderscore⟩ := hP.alphabet bytes c hc
  rw [Ejson.tr, if_neg hminus, if_neg hunderscore]
  rfl

theorem Standard.binary (hP : Standard P) (bytes : List UInt8) :
    fromJsonValue P customFactories (document P canonical (.binary bytes)) = .ok (.binary bytes) := by
  rw [document_binary, fromJsonValue]
  show (decodeBase64 P (.string (P.strictEncode64 bytes))).map Value.binary = _
  rw [decodeBase64, hP.string]
  rw [if_neg (not_not.mpr (hP.length bytes)), hP.tr bytes, hP.decode bytes]
  rfl

theorem Standard.date (hP : Standard P) (milliseconds : ℤ) :
    fromJsonValue P customFactories (document P canonical (.date milliseconds)) = .ok (.date milliseconds) := by
  rw [document_date, fromJsonValue]
  show (P.Integer (.int milliseconds)).map Value.date = _
  rw [hP.integer]
  rfl

theorem Standard.regexp (hP : Standard P) {source flags : Str} (h : firstFlags [] (flags.take 50) = flags) :
    fromJsonValue P customFactories (document P canonical (.regexp source flags)) = .ok (.regexp source flags) := by
  have hread : fromJsonValue P customFactories (document P canonical (.regexp source flags)) =
      .ok (.regexp (P.String (.string source)) (sanitizeFlags P (.string flags))) := by
    rw [document_regexp]
    cases canonical with
    | false =>
      show fromJsonValue P customFactories (.hash [(str "$regexp", _), (str "$flags", _)]) = _
      rw [fromJsonValue]
      rfl
    | true => exact fromJsonValue_regexp _ _
  rw [hread, sanitizeFlags, hP.string, hP.string, h]

mutual

theorem fromJsonValue_document (hP : Standard P) : ∀ value : Value F, Tree value → Unreversed value →
    fromJsonValue P customFactories (document P canonical value) = .ok (ordered canonical value)
  | .nil, _, _ | .bool _, _, _ | .int _, _, _ | .float (.finite _), _, _ | .string _, _, _ => by
    cases canonical <;> rfl
  | .date milliseconds, _, _ => hP.date milliseconds
  | .binary bytes, _, _ => hP.binary bytes
  | .regexp _ _, h, _ => hP.regexp h
  | .array items, h, hunreversed => by
    rw [document_array, fromJsonValue, fromJsonItems_map _ (ordered canonical) items
      (fromJsonItems_document hP items h hunreversed), ordered, orderedItems_eq_map]
    rfl
  | .hash fields, h, hunreversed => by
    rw [Tree] at h
    rw [Unreversed] at hunreversed
    have hfields := fromJsonFields_document hP fields h.2 hunreversed.2
    rw [fromJsonValue_members hunreversed.1, members, inOrder_map, fromJsonFields_map _ (ordered canonical) _
      fun field hin => hfields field ((inOrder_perm fields).mem_iff.mp hin)]
    rw [ordered, orderedFields_eq_map, inOrder_map]
    rfl
  | .float .nan, h, _ | .float (.inf _), h, _ | .time _, h, _ | .pattern _ _ _, h, _ | .custom _ _, h, _ => h.elim

theorem fromJsonItems_document (hP : Standard P) : ∀ items : List (Value F), TreeItems items →
    UnreversedItems items → ∀ item ∈ items,
      fromJsonValue P customFactories (document P canonical item) = .ok (ordered canonical item)
  | [], _, _ => fun item hin => by cases hin
  | item :: items, h, hunreversed => fun item' hin => by
    rcases List.mem_cons.mp hin with heq | hin
    · rw [heq]
      exact fromJsonValue_document hP item h.1 hunreversed.1
    · exact fromJsonItems_document hP items h.2 hunreversed.2 item' hin

theorem fromJsonFields_document (hP : Standard P) : ∀ fields : List (Str × Value F), TreeFields fields →
    UnreversedFields fields → ∀ field ∈ fields,
      fromJsonValue P customFactories (document P canonical field.2) = .ok (ordered canonical field.2)
  | [], _, _ => fun field hin => by cases hin
  | (key, value) :: fields, h, hunreversed => fun field hin => by
    rcases List.mem_cons.mp hin with rfl | hin
    · exact fromJsonValue_document hP value h.1 hunreversed.1
    · exact fromJsonFields_document hP fields h.2 hunreversed.2 field hin

end

/-! ## A tree with reversed keys does not -/

mutual

theorem unreversed_of_equal (hcustom : NoHash customFactories) : ∀ {value value' : Value F}, Tree value →
    fromJsonValue P customFactories (document P canonical value) = .ok value' → Equal value' value → Unreversed value
  | .array items, value', h, hread, hequal => by
    rw [Tree] at h
    rw [document_array, fromJsonValue] at hread
    cases hitems : fromJsonItems P customFactories (items.map (document P canonical)) with
    | error e => rw [hitems] at hread; cases hread
    | ok values =>
      rw [hitems] at hread
      obtain rfl := Except.ok.inj hread
      exact unreversed_items hcustom h hitems hequal
  | .hash fields, value', h, hread, hequal => by
    rw [Tree] at h
    rw [Unreversed]
    cases hreversed : reversed fields with
    | true =>
      have hhash := fromJsonValue_reversed hcustom hreversed hread
      cases value' with
      | hash fields' => exact absurd rfl (hhash fields')
      | _ => cases hequal
    | false =>
      rw [fromJsonValue_members hreversed] at hread
      cases hfields : fromJsonFields P customFactories (members P canonical fields) with
      | error e => rw [hfields] at hread; cases hread
      | ok values =>
        rw [hfields] at hread
        obtain rfl := Except.ok.inj hread
        rw [Equal, equalFields_iff] at hequal
        refine ⟨rfl, unreversed_fields hcustom h.2 fun field hin => ?_⟩
        have hmember : (field.1, document P canonical field.2) ∈ members P canonical fields :=
          (inOrder_perm _).mem_iff.mpr (List.mem_map_of_mem hin)
        obtain ⟨value, hvalue, hread⟩ := fromJsonFields_ok hfields _ hmember
        obtain ⟨field', hin', hkey, hequal⟩ := hequal.2 _ hvalue
        -- The keys are distinct, so it is the same member.
        rw [List.inj_on_of_nodup_map h.1 hin' hin hkey] at hequal
        exact ⟨value, hread, hequal⟩
  | .nil, _, _, _, _ | .bool _, _, _, _, _ | .int _, _, _, _, _ | .float _, _, _, _, _ | .string _, _, _, _, _
  | .date _, _, _, _, _ | .time _, _, _, _, _ | .regexp _ _, _, _, _, _ | .pattern _ _ _, _, _, _, _
  | .binary _, _, _, _, _ | .custom _ _, _, _, _, _ => trivial

theorem unreversed_items (hcustom : NoHash customFactories) : ∀ {items values : List (Value F)}, TreeItems items →
    fromJsonItems P customFactories (items.map (document P canonical)) = .ok values → EqualItems values items →
    UnreversedItems items
  | [], _, _, _, _ => trivial
  | item :: items, _, h, hread, hequal => by
    obtain ⟨value, values, rfl, hitem, hitems⟩ := fromJsonItems_cons hread
    exact ⟨unreversed_of_equal hcustom h.1 hitem hequal.1, unreversed_items hcustom h.2 hitems hequal.2⟩

theorem unreversed_fields (hcustom : NoHash customFactories) : ∀ {fields : List (Str × Value F)}, TreeFields fields →
    (∀ field ∈ fields, ∃ value', fromJsonValue P customFactories (document P canonical field.2) = .ok value' ∧
      Equal value' field.2) → UnreversedFields fields
  | [], _, _ => trivial
  | (key, value) :: fields, h, hall => by
    obtain ⟨value', hread, hequal⟩ := hall _ (List.mem_cons_self ..)
    exact ⟨unreversed_of_equal hcustom h.1 hread hequal,
      unreversed_fields hcustom h.2 fun field hin => hall field (List.mem_cons_of_mem _ hin)⟩

end

/-! ## The text -/

theorem nestingFields_perm {fields fields' : List (Str × Json F)} (h : fields.Perm fields') :
    nestingFields fields = nestingFields fields' := by
  induction h with
  | nil => rfl
  | cons field _ ih => rw [nestingFields, nestingFields, ih]
  | swap field field' fields => simp only [nestingFields, Nat.max_left_comm]
  | trans _ _ ih ih' => rw [ih, ih']

mutual

theorem nesting_document : ∀ value : Value F, Tree value → nesting (document P canonical value) = depth value
  | .nil, _ | .bool _, _ | .int _, _ | .float (.finite _), _ | .string _, _ => by cases canonical <;> rfl
  | .date _, _ | .binary _, _ | .regexp _ _, _ => by cases canonical <;> rfl
  | .array items, h => by
    rw [document_array, nesting, nestingItems_document items h, depth]
  | .hash fields, h => by
    have hmembers : nestingFields (members P canonical fields) = depthFields fields := by
      rw [members, nestingFields_perm (inOrder_perm _)]
      exact nestingFields_document fields h.2
    rw [document_hash, depth]
    split
    · simp only [nesting, nestingFields, Nat.max_zero, hmembers]
    · rw [nesting, hmembers]
  | .float .nan, h | .float (.inf _), h | .time _, h | .pattern _ _ _, h | .custom _ _, h => h.elim

theorem nestingItems_document : ∀ items : List (Value F), TreeItems items →
    nestingItems (items.map (document P canonical)) = depthItems items
  | [], _ => rfl
  | item :: items, h => by
    rw [List.map_cons, nestingItems, nesting_document item h.1, nestingItems_document items h.2, depthItems]

theorem nestingFields_document : ∀ fields : List (Str × Value F), TreeFields fields →
    nestingFields (fields.map fun field => (field.1, document P canonical field.2)) = depthFields fields
  | [], _ => rfl
  | (key, value) :: fields, h => by
    rw [List.map_cons, nestingFields, nesting_document value h.1, nestingFields_document fields h.2, depthFields]

end

theorem distinctItems_iff : ∀ {items : List (Json F)}, DistinctItems items ↔ ∀ item ∈ items, Distinct item
  | [] => by simp [DistinctItems]
  | item :: items => by simp [DistinctItems, @distinctItems_iff items]

theorem distinctFields_iff : ∀ {fields : List (Str × Json F)},
    DistinctFields fields ↔ ∀ field ∈ fields, Distinct field.2
  | [] => by simp [DistinctFields]
  | (key, value) :: fields => by simp [DistinctFields, @distinctFields_iff fields]

theorem distinct_inOrder {fields : List (Str × Json F)} (hkeys : (fields.map Prod.fst).Nodup)
    (h : ∀ field ∈ fields, Distinct field.2) : Distinct (.hash (inOrder canonical fields)) := by
  rw [Distinct, distinctFields_iff]
  exact ⟨((inOrder_perm fields).map Prod.fst).nodup_iff.mpr hkeys,
    fun field hin => h field ((inOrder_perm fields).mem_iff.mp hin)⟩

mutual

theorem distinct_document : ∀ value : Value F, Tree value → Distinct (document P canonical value)
  | .nil, _ | .bool _, _ | .int _, _ | .float (.finite _), _ | .string _, _ => by cases canonical <;> exact trivial
  | .date milliseconds, _ => by
    rw [document_date]
    exact ⟨List.nodup_singleton _, trivial, trivial⟩
  | .binary bytes, _ => by
    rw [document_binary]
    exact ⟨List.nodup_singleton _, trivial, trivial⟩
  | .regexp source flags, _ => by
    rw [document_regexp]
    have hkeys : [str "$regexp", str "$flags"].Nodup := by decide
    refine distinct_inOrder hkeys fun field hin => ?_
    rcases List.mem_pair.mp hin with rfl | rfl <;> exact trivial
  | .array items, h => by
    rw [document_array, Distinct, distinctItems_iff]
    intro _ hin
    obtain ⟨item, hitem, rfl⟩ := List.mem_map.mp hin
    exact distinct_items items h item hitem
  | .hash fields, h => by
    have hmembers : Distinct (.hash (members P canonical fields)) := by
      refine distinct_inOrder ?_ fun field hin => ?_
      · rw [List.map_map]
        exact h.1
      · obtain ⟨field, hfield, rfl⟩ := List.mem_map.mp hin
        exact distinct_fields fields h.2 field hfield
    rw [document_hash]
    split
    · exact ⟨List.nodup_singleton _, hmembers, trivial⟩
    · exact hmembers
  | .float .nan, h | .float (.inf _), h | .time _, h | .pattern _ _ _, h | .custom _ _, h => h.elim

theorem distinct_items : ∀ items : List (Value F), TreeItems items →
    ∀ item ∈ items, Distinct (document P canonical item)
  | [], _ => fun item hin => by cases hin
  | item :: items, h => fun item' hin => by
    rcases List.mem_cons.mp hin with heq | hin
    · rw [heq]
      exact distinct_document item h.1
    · exact distinct_items items h.2 item' hin

theorem distinct_fields : ∀ fields : List (Str × Value F), TreeFields fields →
    ∀ field ∈ fields, Distinct (document P canonical field.2)
  | [], _ => fun field hin => by cases hin
  | (key, value) :: fields, h => fun field hin => by
    rcases List.mem_cons.mp hin with rfl | hin
    · exact distinct_document value h.1
    · exact distinct_fields fields h.2 field hin

end

theorem parse_stringify (hP : Standard P) {value : Value F} (h : Tree value) :
    parse P customFactories (stringify P canonical value) =
      if depth value ≤ maxNesting then fromJsonValue P customFactories (document P canonical value)
      else .error .nestingError := by
  rw [parse, parseJson, show stringify P canonical value = P.generate (document P canonical value) from rfl,
    hP.read _ (distinct_document value h)]
  dsimp only
  rw [nesting_document value h]
  split <;> rfl

theorem Faithful.roundTrips (hP : Standard P) {value : Value F} (h : Tree value) (hfaithful : Faithful value) :
    RoundTrips P canonical customFactories value := by
  refine ⟨ordered canonical value, ?_, equal_ordered value⟩
  rw [parse_stringify hP h, if_pos hfaithful.shallow]
  exact fromJsonValue_document hP value h hfaithful.unreversed

theorem RoundTrips.faithful (hP : Standard P) {value : Value F} (h : Tree value) (hcustom : NoHash customFactories)
    (hround : RoundTrips P canonical customFactories value) : Faithful value := by
  obtain ⟨value', hparse, hequal⟩ := hround
  rw [parse_stringify hP h] at hparse
  split at hparse
  · next hdepth => exact ⟨unreversed_of_equal hcustom h hparse hequal, hdepth⟩
  · cases hparse

/-- Whatever types are registered, the faithful trees come back, with sorted keys or not; and the
others do not, unless a custom type pretends to be a hash. -/
theorem parse_stringify_iff (hP : Standard P) {value : Value F} (h : Tree value) :
    ((∀ customFactories, RoundTrips P canonical customFactories value) ↔ Faithful value) ∧
      ∀ customFactories, NoHash customFactories →
        (RoundTrips P canonical customFactories value ↔ Faithful value) := by
  have hiff : ∀ customFactories, NoHash customFactories →
      (RoundTrips P canonical customFactories value ↔ Faithful value) := fun customFactories hcustom =>
    ⟨fun hround => hround.faithful hP h hcustom, fun hfaithful => hfaithful.roundTrips hP h⟩
  refine ⟨⟨fun hround => ?_, fun hfaithful customFactories => hfaithful.roundTrips hP h⟩, hiff⟩
  exact (hiff (fun _ => none) fun name factory value fields hfactory => by cases hfactory).mp (hround _)

end

/-! ### A platform -/

/-- Numbers are rational, and a text is the document that it spells. -/
def documents : Platform ℚ (Json ℚ) where
  generate := id
  read := some
  Integer
    | .int n => .ok n
    | .float x => .ok (if 0 ≤ x then ⌊x⌋ else ⌈x⌉)
    | _ => .error (.typeError "can't convert into Integer")
  String
    | .bool b => str (toString b)
    | .int n => str (toString n)
    | .string s => s
    | _ => []
  equal x n := x = n
  strictEncode64 := TypeFerry.Ejson.Base64.encodeChars
  strictDecode64 := TypeFerry.Ejson.Base64.decodeChars

theorem standard_documents : Standard documents where
  read _ _ := rfl
  integer _ := rfl
  string _ := rfl
  decode := TypeFerry.Ejson.Base64.decodeChars_encodeChars
  length bytes := by
    show (TypeFerry.Ejson.Base64.encodeChars bytes).length % 4 = 0
    rw [TypeFerry.Ejson.Base64.length_encodeChars]
    omega
  alphabet _ _ hc := (TypeFerry.Ejson.Base64.mem_encodeChars hc).2

/-- Every level looks like a tag. -/
def lookAlike : Value ℚ :=
  .hash [(str "$type", .array [.date 7, .hash [(str "$date", .float (.finite (1 / 2)))]]),
    (str "$value", .hash [(str "$regexp", .regexp (str "a") (str "gi")), (str "$flags", .binary [1, 2])])]

theorem parse_stringify_iff_lookAlike : RoundTrips documents true (fun _ => none) lookAlike := by
  have htree : Tree lookAlike := by
    simp only [lookAlike, Tree, TreeItems, TreeFields]
    decide
  refine ((parse_stringify_iff standard_documents htree).1.mpr ⟨?_, by decide⟩) _
  simp only [lookAlike, Unreversed, UnreversedItems, UnreversedFields]
  decide

/-- `{"$flags" => "i", "$regexp" => "a"}` -/
def swapped : Value ℚ := .hash [(str "$flags", .string (str "i")), (str "$regexp", .string (str "a"))]

theorem swapped_is_regexp :
    Tree swapped ∧
      parse documents (fun _ => none) (stringify documents false swapped) = .ok (.regexp (str "a") (str "i")) ∧
      ¬ RoundTrips documents false (fun _ => none) swapped := by
  have hparse : parse documents (fun _ => none) (stringify documents false swapped) =
      .ok (.regexp (str "a") (str "i")) := rfl
  refine ⟨⟨by decide, trivial, trivial, trivial⟩, hparse, ?_⟩
  rintro ⟨value', hread, hequal⟩
  rw [hparse] at hread
  obtain rfl := Except.ok.inj hread
  cases hequal

end TypeFerry.Ruby.EjsonRoundTrip
