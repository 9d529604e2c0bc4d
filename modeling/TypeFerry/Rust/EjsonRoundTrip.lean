import TypeFerry.Rust.Ejson

/-! # Rust: when the codec returns, and what it gives back

Reading panics on dates that `chrono` does not have and where base64 does. What is written is read
back but for floats that are integers, which become `Int`, and one or two bytes. -/
namespace TypeFerry.Rust.EjsonRoundTrip
open TypeFerry.Lib.Unicode TypeFerry.Rust.Base64 TypeFerry.Rust.Ejson

variable {F : Type} (P : Platform F)

/-! ## Safe values -/

/-- The object is not a date out of range and not base64 on which the decoder panics. -/
def Sound : List (Str × Json F) → Prop
  | [(key, .number (.int n))] => key = str "$date" → Int64 n → P.inRange n = true
  | [(key, .string s)] => key = str "$binary" → Decodable s
  | _ => True

def isEscape : List (Str × Json F) → Bool
  | [(key, .object _)] => key = str "$escape"
  | _ => false

mutual

/-- Every object that is read is sound. That of `$escape` is not read, only its members are. -/
def Safe : Json F → Prop
  | .array items => SafeItems items
  | .object fields => Sound P fields ∧ if isEscape fields then SafeInner fields else SafeFields fields
  | _ => True

def SafeItems : List (Json F) → Prop
  | [] => True
  | item :: items => Safe item ∧ SafeItems items

def SafeFields : List (Str × Json F) → Prop
  | [] => True
  | (_, value) :: fields => Safe value ∧ SafeFields fields

def SafeInner : List (Str × Json F) → Prop
  | (_, .object inner) :: _ => SafeFields inner
  | _ => True

end

/-! ## Faithful values -/

mutual

/-- Finite floats, dates of whole milliseconds in range and sanitized flags. -/
def Regular : EjsonValue F → Prop
  | .int n => Int64 n
  | .float (.finite _) => True
  | .float _ => False
  | .date nanoseconds => Int64 (timestampMillis nanoseconds) ∧ P.inRange (timestampMillis nanoseconds) = true ∧
    timestampMillis nanoseconds * 1000000 = nanoseconds
  | .regex _ flags => sanitizeFlags flags = flags
  | .array items => RegularItems items
  | .object fields => RegularFields fields
  | .custom _ value => Regular value
  | _ => True

def RegularItems : List (EjsonValue F) → Prop
  | [] => True
  | item :: items => Regular item ∧ RegularItems items

def RegularFields : List (Str × EjsonValue F) → Prop
  | [] => True
  | (_, value) :: fields => Regular value ∧ RegularFields fields

end

mutual

/-- No float is an integer from -2^63 to 2^63, and no binary value has one or two bytes. -/
def Faithful : EjsonValue F → Prop
  | .float (.finite x) => ∀ n, P.integer x = some n → ¬ (-2 ^ 63 ≤ n ∧ n ≤ 2 ^ 63)
  | .binary bytes => Readable bytes
  | .array items => FaithfulItems items
  | .object fields => FaithfulFields fields
  | .custom _ value => Faithful value
  | _ => True

def FaithfulItems : List (EjsonValue F) → Prop
  | [] => True
  | item :: items => Faithful item ∧ FaithfulItems items

def FaithfulFields : List (Str × EjsonValue F) → Prop
  | [] => True
  | (_, value) :: fields => Faithful value ∧ FaithfulFields fields

end

section
variable {P}

/-! ## Tags -/

theorem Map.get_one (key key' : Str) (value : Json F) :
    Map.get [(key, value)] key' = if key = key' then some value else none := by
  by_cases h : key = key' <;> simp [Ejson.Map.get, h]

/-- The tags of one key. -/
theorem decodeTag_one (key : Str) (value : Json F) (escaped custom : Option (EjsonValue F)) :
    decodeTag P [(key, value)] escaped custom =
      if key = str "$date" then
        match value.asI64 with
        | some milliseconds => (unwrapMillis P milliseconds).map fun nanoseconds => some (.date nanoseconds)
        | none => some none
      else if key = str "$InfNaN" then
        match value.asI64 with
        | some sign => some (some (.infNaN (if sign = 0 then .NaN else if sign = 1 then .PositiveInfinity
            else .NegativeInfinity)))
        | none => some none
      else if key = str "$binary" then
        match value.asStr with
        | some b64 =>
          match decode b64 with
          | .ok bytes => some (some (.binary bytes))
          | .error (.error _) => some none
          | .error .panic => none
        | none => some none
      else if key = str "$escape" then
        match value.asObject with
        | some _ => escaped.map some
        | none => some none
      else some none := by
  rw [decodeTag]
  split_ifs with hdate hinfnan hbinary hescape
  · subst hdate
    simp only [Map.get_one, if_pos, Option.bind_some, List.length_singleton]
    cases value.asI64 <;> rfl
  · subst hinfnan
    simp only [Map.get_one, if_pos, Option.bind_some, List.length_singleton]
    cases value.asI64 <;> rfl
  · subst hbinary
    simp only [Map.get_one, if_pos, Option.bind_some, List.length_singleton]
    cases value.asStr <;> rfl
  · subst hescape
    simp only [Map.get_one, if_pos, Option.bind_some, List.length_singleton]
    cases value.asObject <;> rfl
  · simp only [Map.get_one, if_neg hdate, if_neg hinfnan, if_neg hbinary, if_neg hescape, Option.bind_none,
      List.length_singleton]

/-- The tags of two keys. -/
theorem decodeTag_two (field field' : Str × Json F) (escaped custom : Option (EjsonValue F)) :
    decodeTag P [field, field'] escaped custom =
      match (Map.get [field, field'] (str "$regexp")).bind Json.asStr,
        (Map.get [field, field'] (str "$flags")).bind Json.asStr with
      | some source, some flags => some (some (.regex source (sanitizeFlags flags)))
      | _, _ =>
        match (Map.get [field, field'] (str "$type")).bind Json.asStr, Map.get [field, field'] (str "$value") with
        | some name, some _ => custom.map fun value => some (.custom name value)
        | _, _ => some none := by
  have hlength : [field, field'].length = 2 := rfl
  rw [decodeTag, hlength]
  cases (Map.get [field, field'] (str "$date")).bind Json.asI64 <;>
    cases (Map.get [field, field'] (str "$InfNaN")).bind Json.asI64 <;>
    cases (Map.get [field, field'] (str "$binary")).bind Json.asStr <;>
    cases (Map.get [field, field'] (str "$escape")).bind Json.asObject <;>
    cases (Map.get [field, field'] (str "$regexp")).bind Json.asStr <;>
    cases (Map.get [field, field'] (str "$flags")).bind Json.asStr <;>
    cases (Map.get [field, field'] (str "$type")).bind Json.asStr <;>
    cases Map.get [field, field'] (str "$value") <;> rfl

/-! ## When reading returns -/

theorem asI64_eq_some {value : Json F} {n : ℤ} : value.asI64 = some n ↔ value = .number (.int n) ∧ Int64 n := by
  cases value with
  | number m => cases m with
    | int m =>
      simp only [Json.asI64, Number.asI64, Json.number.injEq, Number.int.injEq]
      by_cases h : Int64 m
      · rw [if_pos h, Option.some.injEq]
        exact ⟨fun heq => ⟨heq, heq ▸ h⟩, And.left⟩
      · rw [if_neg h]
        exact ⟨fun heq => (by cases heq), fun ⟨heq, hn⟩ => absurd (heq ▸ hn) h⟩
    | float x => simp [Json.asI64, Number.asI64]
  | _ => simp [Json.asI64]

theorem asStr_eq_some {value : Json F} {s : Str} : value.asStr = some s ↔ value = .string s := by
  cases value <;> simp [Json.asStr]

theorem sound_date (value : Json F) :
    Sound P [(str "$date", value)] ↔ ∀ n, value.asI64 = some n → P.inRange n = true := by
  have hbinary : str "$date" ≠ str "$binary" := by decide
  cases value with
  | number m => cases m with
    | int m =>
      simp only [Sound, asI64_eq_some, Json.number.injEq, Number.int.injEq]
      exact ⟨fun h n ⟨heq, hn⟩ => heq ▸ h trivial (heq ▸ hn), fun h _ hm => h m ⟨rfl, hm⟩⟩
    | float x => simp [Sound, asI64_eq_some]
  | _ => simp [Sound, asI64_eq_some, hbinary]

theorem sound_binary (value : Json F) :
    Sound P [(str "$binary", value)] ↔ ∀ s, value.asStr = some s → Decodable s := by
  have hdate : str "$binary" ≠ str "$date" := by decide
  cases value with
  | number m => cases m <;> simp [Sound, asStr_eq_some, hdate]
  | _ => simp [Sound, asStr_eq_some]

theorem sound_other {key : Str} (hdate : key ≠ str "$date") (hbinary : key ≠ str "$binary") (value : Json F) :
    Sound P [(key, value)] := by
  cases value with
  | number m => cases m with
    | int m => exact fun h => absurd h hdate
    | float x => trivial
  | string s => exact fun h => absurd h hbinary
  | _ => trivial

theorem isEscape_one (key : Str) (value : Json F) :
    isEscape [(key, value)] = (decide (key = str "$escape") && value.asObject.isSome) := by
  cases value <;> simp [isEscape, Json.asObject]

theorem fromJsonFields_one (key : Str) (value : Json F) :
    fromJsonFields P [(key, value)] = (fromJsonValue P value).map fun decoded => [(key, decoded)] := by
  rw [fromJsonFields, fromJsonFields]
  cases fromJsonValue P value <;> rfl

/-- What reading an object comes to, if its tag does. -/
def orMembers (fields : List (Str × Json F)) : Option (Option (EjsonValue F)) → Option (EjsonValue F)
  | none => none
  | some (some decoded) => some decoded
  | some none => (fromJsonFields P fields).map .object

theorem fromJsonValue_object (fields : List (Str × Json F)) :
    fromJsonValue P (.object fields) = orMembers (P := P) fields (if dollarKeys fields then
      decodeTag P fields (fromEscaped P fields) (fromMember P (str "$value") fields) else some none) := by
  rw [fromJsonValue]
  rfl

variable (P) in
/-- What is left to be read of an object that is sound. -/
def membersOf (fields : List (Str × Json F)) : Option (EjsonValue F) :=
  if isEscape fields then fromEscaped P fields else (fromJsonFields P fields).map .object

theorem membersOf_number (key : Str) {value : Json F} {n : ℤ} (h : value.asI64 = some n) :
    (membersOf P [(key, value)]).isSome = true := by
  obtain ⟨rfl, _⟩ := asI64_eq_some.mp h
  rw [membersOf, isEscape_one, fromJsonFields_one]
  simp [Json.asObject, fromJsonValue]

theorem membersOf_string (key : Str) {s : Str} {value : Json F} (h : value.asStr = some s) :
    (membersOf P [(key, value)]).isSome = true := by
  obtain rfl := asStr_eq_some.mp h
  rw [membersOf, isEscape_one, fromJsonFields_one]
  simp [Json.asObject, fromJsonValue]

theorem membersOf_eq {key : Str} {value : Json F} (h : key = str "$escape" → value.asObject = none) :
    membersOf P [(key, value)] = (fromJsonFields P [(key, value)]).map .object := by
  rw [membersOf, isEscape_one]
  by_cases hkey : key = str "$escape"
  · rw [h hkey, Option.isSome_none, Bool.and_false]
    rfl
  · rw [decide_eq_false hkey, Bool.false_and]
    rfl

theorem object_isSome_one (key : Str) (value : Json F) :
    (fromJsonValue P (.object [(key, value)])).isSome = true ↔
      Sound P [(key, value)] ∧ (membersOf P [(key, value)]).isSome = true := by
  rw [fromJsonValue_object]
  by_cases hdate : key = str "$date"
  · subst hdate
    rw [show dollarKeys [(str "$date", value)] = true from rfl, if_pos rfl, decodeTag_one, if_pos rfl, sound_date]
    cases hvalue : value.asI64 with
    | none =>
      rw [membersOf_eq fun h => absurd h (by decide)]
      simp [orMembers]
    | some n =>
      have hmembers := membersOf_number (P := P) (str "$date") hvalue
      cases hrange : P.inRange n with
      | true => simp [unwrapMillis, orMembers, hrange, hmembers]
      | false => simp [unwrapMillis, orMembers, hrange]
  by_cases hbinary : key = str "$binary"
  · subst hbinary
    rw [show dollarKeys [(str "$binary", value)] = true from rfl, if_pos rfl, decodeTag_one, if_neg hdate,
      if_neg (by decide), if_pos rfl, sound_binary]
    cases hvalue : value.asStr with
    | none =>
      rw [membersOf_eq fun h => absurd h (by decide)]
      simp [orMembers]
    | some s =>
      have hmembers := membersOf_string (P := P) (str "$binary") hvalue
      have hdecodable := decode_returns_iff s
      cases hdecode : decode s with
      | ok bytes =>
        rw [hdecode] at hdecodable
        simp [orMembers, hmembers, hdecode, hdecodable.mp (by simp)]
      | error e =>
        rw [hdecode] at hdecodable
        cases e with
        | panic =>
          have hnot : ¬ Decodable s := fun h => hdecodable.mpr h rfl
          simp [orMembers, hdecode, hnot]
        | error e =>
          rw [membersOf_eq fun h => absurd h (by decide)] at hmembers ⊢
          simp [orMembers, hmembers, hdecode, hdecodable.mp (by simp)]
  have hsound := sound_other (P := P) hdate hbinary value
  rw [and_iff_right hsound]
  by_cases hinfnan : key = str "$InfNaN"
  · subst hinfnan
    rw [show dollarKeys [(str "$InfNaN", value)] = true from rfl, if_pos rfl, decodeTag_one, if_neg hdate, if_pos rfl]
    cases hvalue : value.asI64 with
    | none =>
      rw [membersOf_eq fun h => absurd h (by decide)]
      exact Iff.rfl
    | some n => exact iff_of_true rfl (membersOf_number _ hvalue)
  by_cases hescape : key = str "$escape"
  · subst hescape
    rw [show dollarKeys [(str "$escape", value)] = true from rfl, if_pos rfl, decodeTag_one, if_neg hdate,
      if_neg hinfnan, if_neg hbinary, if_pos rfl]
    cases hvalue : value.asObject with
    | none =>
      rw [membersOf_eq fun _ => hvalue]
      exact Iff.rfl
    | some inner =>
      rw [membersOf, isEscape_one, hvalue]
      cases hinner : fromEscaped P [(str "$escape", value)] <;> exact Iff.rfl
  · rw [decodeTag_one, if_neg hdate, if_neg hinfnan, if_neg hbinary, if_neg hescape, ite_self,
      membersOf_eq fun h => absurd h hescape]
    exact Iff.rfl

/-- Two members with two keys. -/
theorem Map.get_two {field field' : Str × Json F} {key key' : Str} {value value' : Json F} (hne : key ≠ key')
    (h : Map.get [field, field'] key = some value) (h' : Map.get [field, field'] key' = some value') :
    field = (key, value) ∧ field' = (key', value') ∨ field = (key', value') ∧ field' = (key, value) := by
  obtain ⟨k, v⟩ := field
  obtain ⟨k', v'⟩ := field'
  simp only [Ejson.Map.get, List.find?_cons, List.find?_nil] at h h'
  by_cases hkey : k = key
  · subst hkey
    simp only [decide_true, Option.map_some, Option.some.injEq] at h
    simp only [decide_eq_false hne] at h'
    by_cases hkey' : k' = key'
    · simp only [hkey', decide_true, Option.map_some, Option.some.injEq] at h'
      exact .inl ⟨by rw [h], by rw [hkey', h']⟩
    · simp [hkey'] at h'
  · simp only [decide_eq_false hkey] at h
    by_cases hkey₁ : k' = key
    · subst hkey₁
      simp only [decide_true, Option.map_some, Option.some.injEq] at h
      by_cases hkey₂ : k = key'
      · simp only [hkey₂, decide_true, Option.map_some, Option.some.injEq] at h'
        exact .inr ⟨by rw [hkey₂, h'], by rw [h]⟩
      · simp [hkey₂, hne] at h'
    · simp [hkey₁] at h

theorem object_isSome_two (field field' : Str × Json F) :
    (fromJsonValue P (.object [field, field'])).isSome = (fromJsonFields P [field, field']).isSome := by
  have hplain : ((fromJsonFields P [field, field']).map EjsonValue.object).isSome =
      (fromJsonFields P [field, field']).isSome := Option.isSome_map
  rw [fromJsonValue_object]
  cases hdollar : dollarKeys [field, field'] with
  | false => exact hplain
  | true =>
    rw [if_pos rfl, decodeTag_two]
    split
    · next source flags hsource hflags =>
      obtain ⟨value, hget, hvalue⟩ := Option.bind_eq_some_iff.mp hsource
      obtain ⟨value', hget', hvalue'⟩ := Option.bind_eq_some_iff.mp hflags
      obtain rfl := asStr_eq_some.mp hvalue
      obtain rfl := asStr_eq_some.mp hvalue'
      rcases Map.get_two (by decide) hget hget' with ⟨rfl, rfl⟩ | ⟨rfl, rfl⟩ <;> rfl
    · split
      · next name inner hname hget' =>
        obtain ⟨value, hget, hvalue⟩ := Option.bind_eq_some_iff.mp hname
        obtain rfl := asStr_eq_some.mp hvalue
        have hne : str "$type" ≠ str "$value" := by decide
        -- The name is a string, so only the value is read.
        rcases Map.get_two hne hget hget' with ⟨rfl, rfl⟩ | ⟨rfl, rfl⟩
        · rw [fromMember, if_neg hne, fromMember, if_pos rfl, fromJsonFields, fromJsonFields_one, fromJsonValue]
          cases fromJsonValue P inner <;> rfl
        · rw [fromMember, if_pos rfl, fromJsonFields, fromJsonFields_one, fromJsonValue]
          cases fromJsonValue P inner <;> rfl
      · exact hplain

theorem dollarKeys_long (field₁ field₂ field₃ : Str × Json F) (fields : List (Str × Json F)) :
    dollarKeys (field₁ :: field₂ :: field₃ :: fields) = false := by
  simp [dollarKeys]

theorem isEscape_long : ∀ (field field' : Str × Json F) (fields : List (Str × Json F)),
    isEscape (field :: field' :: fields) = false
  | (_, value), _, _ => by cases value <;> rfl

theorem sound_long : ∀ (field field' : Str × Json F) (fields : List (Str × Json F)),
    Sound P (field :: field' :: fields)
  | (_, value), _, _ => by
    cases value with
    | number n => cases n <;> trivial
    | _ => trivial

/-- What an object needs to be read. -/
theorem object_isSome (fields : List (Str × Json F)) :
    (fromJsonValue P (.object fields)).isSome = true ↔ Sound P fields ∧ (membersOf P fields).isSome = true := by
  have hplain : ∀ fields : List (Str × Json F), ((fromJsonFields P fields).map EjsonValue.object).isSome =
      (fromJsonFields P fields).isSome := fun _ => Option.isSome_map
  match fields with
  | [] => exact iff_of_true rfl ⟨trivial, rfl⟩
  | [(key, value)] => exact object_isSome_one key value
  | [field, field'] =>
    rw [object_isSome_two, membersOf, isEscape_long, if_neg Bool.false_ne_true, hplain]
    exact (and_iff_right (sound_long ..)).symm
  | field :: field' :: field'' :: fields =>
    rw [fromJsonValue_object, dollarKeys_long, membersOf, isEscape_long, if_neg Bool.false_ne_true,
      if_neg Bool.false_ne_true]
    exact (and_iff_right (sound_long ..)).symm

mutual

/-- Reading returns exactly on the safe values. -/
theorem fromJsonValue_isSome : ∀ json : Json F, (fromJsonValue P json).isSome = true ↔ Safe P json
  | .null | .bool _ | .number _ | .string _ => iff_of_true rfl trivial
  | .array items => by
    rw [fromJsonValue, Option.isSome_map, Safe]
    exact fromJsonItems_isSome items
  | .object fields => by
    rw [object_isSome, membersOf, Safe]
    refine and_congr_right fun _ => ?_
    cases hescape : isEscape fields with
    | true => exact fromEscaped_isSome fields hescape
    | false =>
      rw [if_neg Bool.false_ne_true, if_neg Bool.false_ne_true, Option.isSome_map]
      exact fromJsonFields_isSome fields

theorem fromJsonItems_isSome : ∀ items : List (Json F),
    (fromJsonItems P items).isSome = true ↔ SafeItems P items
  | [] => iff_of_true rfl trivial
  | item :: items => by
    rw [SafeItems, ← fromJsonValue_isSome item, ← fromJsonItems_isSome items, fromJsonItems]
    cases fromJsonValue P item <;> cases fromJsonItems P items <;> simp

theorem fromJsonFields_isSome : ∀ fields : List (Str × Json F),
    (fromJsonFields P fields).isSome = true ↔ SafeFields P fields
  | [] => iff_of_true rfl trivial
  | (key, value) :: fields => by
    rw [SafeFields, ← fromJsonValue_isSome value, ← fromJsonFields_isSome fields, fromJsonFields]
    cases fromJsonValue P value <;> cases fromJsonFields P fields <;> simp

theorem fromEscaped_isSome : ∀ fields : List (Str × Json F), isEscape fields = true →
    ((fromEscaped P fields).isSome = true ↔ SafeInner P fields)
  | [(key, .object inner)], _ => by
    rw [fromEscaped, Option.isSome_map, SafeInner]
    exact fromJsonFields_isSome inner

end

/-! ## What comes back -/

/-- An object, written and read. -/
theorem fromJsonValue_toJsonFields (fields : List (Str × EjsonValue F)) :
    fromJsonValue P (toJsonValue (.object fields)) = (fromJsonFields P (toJsonFields fields)).map .object := by
  rw [toJsonValue]
  cases htag : looksLikeTagForm fields with
  | true =>
    rw [if_pos rfl, fromJsonValue_object]
    show orMembers (P := P) _ ((((fromJsonFields P (toJsonFields fields)).map EjsonValue.object).map some)) = _
    cases fromJsonFields P (toJsonFields fields) <;> rfl
  | false =>
    rw [if_neg Bool.false_ne_true, fromJsonValue_object]
    match fields, htag with
    | [], _ => rfl
    | [(key, value)], htag =>
      simp only [looksLikeTagForm, decide_eq_false_iff_not, List.mem_cons, List.not_mem_nil, or_false, not_or] at htag
      rw [toJsonFields, toJsonFields, decodeTag_one, if_neg htag.1, if_neg htag.2.1, if_neg htag.2.2.1,
        if_neg htag.2.2.2, ite_self]
      rfl
    | [(key, value), (key', value')], htag =>
      simp only [looksLikeTagForm, Bool.or_eq_false_iff, Bool.and_eq_false_iff, decide_eq_false_iff_not] at htag
      have hplain : decodeTag P [(key, toJsonValue value), (key', toJsonValue value')]
          (fromEscaped P [(key, toJsonValue value), (key', toJsonValue value')])
          (fromMember P (str "$value") [(key, toJsonValue value), (key', toJsonValue value')]) = some none := by
        rw [decodeTag_two]
        split
        · next source flags hsource hflags =>
          obtain ⟨_, hget, _⟩ := Option.bind_eq_some_iff.mp hsource
          obtain ⟨_, hget', _⟩ := Option.bind_eq_some_iff.mp hflags
          rcases Map.get_two (by decide) hget hget' with ⟨h, h'⟩ | ⟨h, h'⟩ <;>
            simp [(Prod.mk.inj h).1, (Prod.mk.inj h').1] at htag
        · split
          · next name inner hname hget' =>
            obtain ⟨_, hget, _⟩ := Option.bind_eq_some_iff.mp hname
            rcases Map.get_two (by decide) hget hget' with ⟨h, h'⟩ | ⟨h, h'⟩ <;>
              simp [(Prod.mk.inj h).1, (Prod.mk.inj h').1] at htag
          · rfl
      rw [toJsonFields, toJsonFields, toJsonFields, hplain, ite_self]
      rfl
    | _ :: _ :: _ :: _, _ =>
      rw [toJsonFields, toJsonFields, toJsonFields, dollarKeys_long]
      rfl

theorem fromJsonValue_date {nanoseconds : ℤ} (h : Regular P (.date nanoseconds)) :
    fromJsonValue P (toJsonValue (.date nanoseconds)) = some (.date nanoseconds) := by
  obtain ⟨hint, hrange, hwhole⟩ := h
  have hvalue : (Json.number (F := F) (.int (timestampMillis nanoseconds))).asI64 = some (timestampMillis nanoseconds) :=
    if_pos hint
  rw [toJsonValue, fromJsonValue_object, show dollarKeys [(str "$date", _)] = true from rfl, if_pos rfl, decodeTag_one,
    if_pos rfl, hvalue]
  dsimp only
  rw [unwrapMillis, if_pos hrange, hwhole]
  rfl

theorem fromJsonValue_binary (bytes : List UInt8) :
    fromJsonValue P (toJsonValue (.binary bytes)) = some (.binary bytes) ↔ Readable bytes := by
  have hread : fromJsonValue P (toJsonValue (.binary bytes)) =
      orMembers (P := P) [(str "$binary", .string (encode bytes))] (match decode (encode bytes) with
        | .ok bytes => some (some (.binary bytes))
        | .error (.error _) => some none
        | .error .panic => none) := by
    rw [toJsonValue, fromJsonValue_object, show dollarKeys [(str "$binary", _)] = true from rfl, if_pos rfl,
      decodeTag_one, if_neg (by decide), if_neg (by decide), if_pos rfl]
    rfl
  rw [hread, ← decode_encode_iff]
  cases decode (encode bytes) with
  | ok bytes' => simp [orMembers]
  | error e => cases e with
    | panic => simp [orMembers]
    | error e => simp [orMembers, fromJsonFields_one, fromJsonValue]

theorem fromJsonValue_float (x : F) :
    fromJsonValue P (toJsonValue (.float (.finite x))) = some (.float (.finite x)) ↔
      Faithful P (.float (.finite x)) := by
  rw [toJsonValue, fromJsonValue, Faithful]
  show some (fromF64 P (.finite x)) = _ ↔ _
  rw [Option.some.injEq, fromF64]
  cases P.integer x with
  | none => exact iff_of_true rfl fun n h => by cases h
  | some n =>
    dsimp only
    by_cases hn : -2 ^ 63 ≤ n ∧ n ≤ 2 ^ 63
    · rw [if_pos hn]
      exact iff_of_false (fun h => by cases h) fun h => h n rfl hn
    · rw [if_neg hn]
      exact iff_of_true rfl fun m h => by
        obtain rfl := Option.some.inj h
        exact hn

theorem fromJsonValue_custom (name : Str) (value : EjsonValue F) :
    fromJsonValue P (toJsonValue (.custom name value)) =
      (fromJsonValue P (toJsonValue value)).map (.custom name) := by
  rw [toJsonValue, fromJsonValue_object]
  have hmember : fromMember P (str "$value") [(str "$type", .string name), (str "$value", toJsonValue value)] =
      fromJsonValue P (toJsonValue value) := by
    have hne : str "$type" ≠ str "$value" := by decide
    rw [fromMember, if_neg hne, fromMember, if_pos rfl]
  rw [decodeTag_two, hmember]
  show orMembers (P := P) _ ((fromJsonValue P (toJsonValue value)).map fun value => some (.custom name value)) = _
  cases fromJsonValue P (toJsonValue value) <;> rfl

mutual

/-- What is written is read back exactly if it is faithful. -/
theorem fromJsonValue_toJsonValue : ∀ value : EjsonValue F, Regular P value →
    (fromJsonValue P (toJsonValue value) = some value ↔ Faithful P value)
  | .null, _ | .bool _, _ | .string _, _ => iff_of_true rfl trivial
  | .int n, h => by
    rw [Regular] at h
    refine iff_of_true ?_ trivial
    rw [toJsonValue, fromJsonValue, fromNumber, show (Number.int (F := F) n).asI64 = some n from if_pos h]
  | .float (.finite x), _ => fromJsonValue_float x
  | .float .nan, h | .float (.inf _), h => h.elim
  | .date _, h => iff_of_true (fromJsonValue_date h) trivial
  | .binary bytes, _ => fromJsonValue_binary bytes
  | .regex source flags, h => by
    rw [Regular] at h
    refine iff_of_true ?_ trivial
    rw [toJsonValue, fromJsonValue_object, decodeTag_two]
    show some (EjsonValue.regex source (sanitizeFlags flags)) = _
    rw [h]
  | .infNaN sign, _ => by
    refine iff_of_true ?_ trivial
    rw [toJsonValue, fromJsonValue_object, decodeTag_one]
    cases sign <;> rfl
  | .custom name value, h => by
    rw [Regular] at h
    rw [fromJsonValue_custom, Faithful, ← fromJsonValue_toJsonValue value h]
    cases fromJsonValue P (toJsonValue value) <;> simp
  | .array items, h => by
    rw [Regular] at h
    rw [toJsonValue, fromJsonValue, Faithful, ← fromJsonItems_toJsonItems items h]
    cases fromJsonItems P (toJsonItems items) <;> simp
  | .object fields, h => by
    rw [Regular] at h
    rw [fromJsonValue_toJsonFields, Faithful, ← fromJsonFields_toJsonFields fields h]
    cases fromJsonFields P (toJsonFields fields) <;> simp

theorem fromJsonItems_toJsonItems : ∀ items : List (EjsonValue F), RegularItems P items →
    (fromJsonItems P (toJsonItems items) = some items ↔ FaithfulItems P items)
  | [], _ => iff_of_true rfl trivial
  | item :: items, h => by
    rw [RegularItems] at h
    rw [toJsonItems, fromJsonItems, FaithfulItems, ← fromJsonValue_toJsonValue item h.1,
      ← fromJsonItems_toJsonItems items h.2]
    cases fromJsonValue P (toJsonValue item) <;> cases fromJsonItems P (toJsonItems items) <;> simp

theorem fromJsonFields_toJsonFields : ∀ fields : List (Str × EjsonValue F), RegularFields P fields →
    (fromJsonFields P (toJsonFields fields) = some fields ↔ FaithfulFields P fields)
  | [], _ => iff_of_true rfl trivial
  | (key, value) :: fields, h => by
    rw [RegularFields] at h
    rw [toJsonFields, fromJsonFields, FaithfulFields, ← fromJsonValue_toJsonValue value h.1,
      ← fromJsonFields_toJsonFields fields h.2]
    cases fromJsonValue P (toJsonValue value) <;> cases fromJsonFields P (toJsonFields fields) <;> simp

end

end

/-- When base64 and the codec return, and when they give back what was written. -/
theorem codec_iff :
    (∀ value, decode value ≠ .error .panic ↔ Decodable value) ∧
      (∀ bytes, decode (encode bytes) = .ok bytes ↔ Readable bytes) ∧
      (∀ json, fromJsonValue P json ≠ none ↔ Safe P json) ∧
      ∀ value, Regular P value → (fromJsonValue P (toJsonValue value) = some value ↔ Faithful P value) := by
  refine ⟨decode_returns_iff, decode_encode_iff, fun json => ?_, fromJsonValue_toJsonValue⟩
  rw [Option.ne_none_iff_isSome]
  exact fromJsonValue_isSome json

/-! ### A platform -/

/-- Numbers are rational, and the dates are those of `chrono`. -/
def rational : Platform ℚ where
  integer x := if x.den = 1 then some x.num else none
  nearest n := n
  inRange n := -8334601228800000 ≤ n && n ≤ 8210266876799999

/-- Every level looks like a tag. -/
def lookAlike : EjsonValue ℚ :=
  .object [(str "$value", .custom (str "t") (.object [(str "$date", .float (.finite (1 / 2)))])),
    (str "$type", .object [(str "$escape", .array [.binary [1, 2, 3, 4], .date 7000000])])]

theorem codec_iff_lookAlike : fromJsonValue rational (toJsonValue lookAlike) = some lookAlike := by
  have hregular : Regular rational lookAlike := by
    simp only [lookAlike, Regular, RegularItems, RegularFields, true_and, and_true]
    decide
  refine ((codec_iff rational).2.2.2 lookAlike hregular).mpr ?_
  have hhalf : rational.integer (1 / 2) = none := by decide +kernel
  simp only [lookAlike, Faithful, FaithfulItems, FaithfulFields, hhalf, and_true, reduceCtorEq, false_imp_iff,
    implies_true, true_and]
  decide

/-- One byte, the last millisecond of an `i64`, and the float 1. -/
theorem codec_panics :
    decode (encode [97]) = .error .panic ∧
      fromJsonValue rational (.object [(str "$date", .number (.int (2 ^ 63 - 1)))]) = none ∧
      fromJsonValue rational (toJsonValue (.float (.finite 1))) = some (.int 1) := by
  refine ⟨by decide +kernel, rfl, ?_⟩
  have hone : rational.integer 1 = some 1 := by decide +kernel
  rw [toJsonValue, fromJsonValue]
  show some (fromF64 rational (.finite 1)) = _
  rw [fromF64, hone]
  rfl

end TypeFerry.Rust.EjsonRoundTrip
