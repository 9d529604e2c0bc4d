import TypeFerry.Ejson.Base64
import TypeFerry.Go.Ejson

/-! # Go: what is written is read back

The writer spells a plain value, in which the tagged kinds are objects. The reader gets that
value from its text, and decoding it gives the one that was written. -/
namespace TypeFerry.Go.EjsonRoundTrip
open TypeFerry.Lib.Unicode TypeFerry.Go.Ejson

variable {F : Type} (P : Platform F) (factories : Str → Option (Value F → Except Error (Value F))) (canonical : Bool)

/-! ## Values that are written -/

mutual

/-- In canonical text the keys of every object are sorted. -/
def ordered : Value F → Value F
  | .array items => .array (orderedItems items)
  | .object fields => .object (inOrder canonical (orderedFields fields))
  | .custom name inner => .custom name (ordered inner)
  | value => value

def orderedItems : List (Value F) → List (Value F)
  | [] => []
  | item :: items => ordered item :: orderedItems items

def orderedFields : List (Str × Value F) → List (Str × Value F)
  | [] => []
  | (key, value) :: fields => (key, ordered value) :: orderedFields fields

end

mutual

/-- The values that come back. A factory rebuilds the custom value that it is given. -/
def Proper : Value F → Prop
  | .int n | .date n => Int64 n
  | .float (.finite x) => P.integer x = none
  | .regex _ flags => sanitizeFlags flags = flags
  | .array items => ProperItems items
  | .object fields => (fields.map Prod.fst).Nodup ∧ ProperFields fields
  | .custom name inner => Proper inner ∧ ∃ factory, factories name = some factory ∧
    factory (ordered canonical inner) = .ok (.custom name (ordered canonical inner))
  | _ => True

def ProperItems : List (Value F) → Prop
  | [] => True
  | item :: items => Proper item ∧ ProperItems items

def ProperFields : List (Str × Value F) → Prop
  | [] => True
  | (_, value) :: fields => Proper value ∧ ProperFields fields

end

/-- Base64 is read back, comes in groups of four and has no URL-safe characters. -/
structure Standard (P : Platform F) : Prop where
  decode : ∀ data, P.DecodeString (P.EncodeToString data) = some data
  length : ∀ data, (utf8 (P.EncodeToString data)).length % 4 = 0
  alphabet : ∀ data, ∀ c ∈ P.EncodeToString data, c ≠ '-' ∧ c ≠ '_'

/-! ## Plain values -/

mutual

/-- The value that the text spells. -/
def encode : Value F → Value F
  | .float .nan => .object [(str "$InfNaN", .int 0)]
  | .float (.inf false) => .object [(str "$InfNaN", .int 1)]
  | .float (.inf true) => .object [(str "$InfNaN", .int (-1))]
  | .array items => .array (encodeItems items)
  | .object fields =>
    let object := .object (inOrder canonical (encodeFields fields))
    if tagShape fields then .object [(str "$escape", object)] else object
  | .date n => .object [(str "$date", .int n)]
  | .binary data => .object [(str "$binary", .string (P.EncodeToString data))]
  | .regex source flags =>
    .object (inOrder canonical [(str "$regexp", .string source), (str "$flags", .string flags)])
  | .custom name inner => .object (inOrder canonical [(str "$type", .string name), (str "$value", encode inner)])
  | value => value

def encodeItems : List (Value F) → List (Value F)
  | [] => []
  | item :: items => encode item :: encodeItems items

def encodeFields : List (Str × Value F) → List (Str × Value F)
  | [] => []
  | (key, value) :: fields => (key, encode value) :: encodeFields fields

end

mutual

/-- The text of a plain value. -/
def text : Value F → List (Lexeme F)
  | .null => [.null]
  | .bool b => [.bool b]
  | .int n => [.integer n]
  | .float (.finite x) => [.real x]
  | .string s => [.string s]
  | .array items => .openBracket :: commas (textItems items) ++ [.closeBracket]
  | .object fields => .openBrace :: commas (textFields fields) ++ [.closeBrace]
  | _ => []

def textItems : List (Value F) → List (List (Lexeme F))
  | [] => []
  | item :: items => text item :: textItems items

def textFields : List (Str × Value F) → List (List (Lexeme F))
  | [] => []
  | (key, value) :: fields => (.string key :: .colon :: text value) :: textFields fields

end

section
variable {P factories canonical}

theorem textFields_eq_map : ∀ fields : List (Str × Value F),
    textFields fields = fields.map fun field => .string field.1 :: .colon :: text field.2
  | [] => rfl
  | (_, _) :: fields => by rw [textFields, textFields_eq_map fields, List.map_cons]

theorem writeObject_text (fields : List (Str × Value F)) :
    writeObject canonical (fields.map fun field => (field.1, text field.2)) =
      text (.object (inOrder canonical fields)) := by
  rw [writeObject, text, textFields_eq_map]
  have hmap := @inOrder_map _ _ canonical text fields
  rw [inOrder] at hmap
  rw [hmap, List.map_map]
  rfl

theorem writeObject_one (key : Str) (value : Value F) :
    writeObject canonical [(key, text value)] = text (.object [(key, value)]) := by
  have hwrite := @writeObject_text F canonical [(key, value)]
  rwa [inOrder_one] at hwrite

mutual

/-- The writer spells the plain value. -/
theorem writeValue_eq : ∀ value : Value F, Proper P factories canonical value →
    writeValue P canonical false value = text (encode P canonical value)
  | .null, _ | .bool _, _ | .int _, _ | .string _, _ => by simp only [writeValue, encode, text]
  | .float (.finite x), h => by
    show marshal P x = [.real x]
    rw [Proper] at h
    rw [marshal, h]
  | .float .nan, _ => writeObject_one (str "$InfNaN") (.int 0)
  | .float (.inf false), _ => writeObject_one (str "$InfNaN") (.int 1)
  | .float (.inf true), _ => writeObject_one (str "$InfNaN") (.int (-1))
  | .date n, _ => writeObject_one (str "$date") (.int n)
  | .binary data, _ => writeObject_one (str "$binary") (.string (P.EncodeToString data))
  | .regex source flags, _ => writeObject_text [(str "$regexp", .string source), (str "$flags", .string flags)]
  | .array items, h => by
    rw [Proper] at h
    rw [writeValue, encode, text, writeItems_eq items h]
  | .object fields, h => by
    rw [Proper] at h
    rw [writeValue, encode, writeFields_eq fields h.2, writeObject_text]
    cases htag : tagShape fields with
    | true => rfl
    | false => rfl
  | .custom name inner, h => by
    rw [Proper] at h
    rw [writeValue, encode, writeValue_eq inner h.1]
    exact writeObject_text [(str "$type", .string name), (str "$value", encode P canonical inner)]

theorem writeItems_eq : ∀ items : List (Value F), ProperItems P factories canonical items →
    writeItems P canonical items = textItems (encodeItems P canonical items)
  | [], _ => rfl
  | item :: items, h => by
    rw [ProperItems] at h
    rw [writeItems, encodeItems, textItems, writeValue_eq item h.1, writeItems_eq items h.2]

theorem writeFields_eq : ∀ fields : List (Str × Value F), ProperFields P factories canonical fields →
    writeFields P canonical fields = (encodeFields P canonical fields).map fun field => (field.1, text field.2)
  | [], _ => rfl
  | (key, value) :: fields, h => by
    rw [ProperFields] at h
    rw [writeFields, encodeFields, List.map_cons, writeValue_eq value h.1, writeFields_eq fields h.2]

end

/-! ## Reading the text of a plain value -/

mutual

/-- A plain value, as the reader builds it. -/
def Plain (P : Platform F) : Value F → Prop
  | .null | .bool _ | .string _ => True
  | .int n => Int64 n
  | .float (.finite x) => P.integer x = none
  | .array items => PlainItems P items
  | .object fields => (fields.map Prod.fst).Nodup ∧ PlainFields P fields
  | _ => False

def PlainItems (P : Platform F) : List (Value F) → Prop
  | [] => True
  | item :: items => Plain P item ∧ PlainItems P items

def PlainFields (P : Platform F) : List (Str × Value F) → Prop
  | [] => True
  | (_, value) :: fields => Plain P value ∧ PlainFields P fields

end

mutual

/-- How deep the reader goes. -/
def height : Value F → ℕ
  | .array items => 1 + heightItems items
  | .object fields => 1 + heightFields fields
  | _ => 1

def heightItems : List (Value F) → ℕ
  | [] => 1
  | item :: items => 1 + max (height item) (heightItems items)

def heightFields : List (Str × Value F) → ℕ
  | [] => 1
  | (_, value) :: fields => 1 + max (height value) (heightFields fields)

end

/-- What comes after the first one. -/
def others (xs : List (List (Lexeme F))) : List (Lexeme F) := xs.flatMap fun x => .comma :: x

theorem commas_cons (x : List (Lexeme F)) : ∀ xs : List (List (Lexeme F)), commas (x :: xs) = x ++ others xs
  | [] => by simp [commas, others]
  | y :: ys => by
    rw [commas, commas_cons y ys, others, others, List.flatMap_cons, List.cons_append]
    exact List.cons_ne_nil _ _

theorem readValue_comma (bound : ℕ) (stack : List TokenState) (rest : List (Lexeme F)) :
    readValue P bound ⟨.comma :: rest, .arrayComma, stack⟩ = readValue P bound ⟨rest, .arrayValue, stack⟩ := by
  cases bound <;> rfl

theorem readValue_colon (bound : ℕ) (stack : List TokenState) (rest : List (Lexeme F)) :
    readValue P bound ⟨.colon :: rest, .objectColon, stack⟩ = readValue P bound ⟨rest, .objectValue, stack⟩ := by
  cases bound <;> rfl

theorem setField_fresh {key : Str} {value : Value F} : ∀ {fields : List (Str × Value F)},
    key ∉ fields.map Prod.fst → setField key value fields = fields ++ [(key, value)]
  | [], _ => rfl
  | field :: fields, h => by
    rw [List.map_cons, List.mem_cons, not_or] at h
    rw [setField, if_neg (Ne.symm h.1), setField_fresh h.2, List.cons_append]

section
variable {state : TokenState} {stack : List TokenState} {rest : List (Lexeme F)} {bound : ℕ}

theorem token_string (h : state.valueAllowed = true) (s : Str) :
    Decoder.Token ⟨.string s :: rest, state, stack⟩ = .ok (.string s, ⟨rest, state.valueEnd, stack⟩) := by
  cases state <;> first | rfl | cases h

theorem more_text {value : Value F} (h : Plain P value) : Decoder.More ⟨text value ++ rest, state, stack⟩ = true := by
  cases value with
  | float x => cases x with
    | finite x => rfl
    | nan | inf _ => cases h
  | date | binary | regex | custom => cases h
  | _ => rfl

end

mutual

theorem readValue_text : ∀ (value : Value F) (bound : ℕ) (state : TokenState) (stack : List TokenState)
    (rest : List (Lexeme F)), Plain P value → height value ≤ bound → state.valueAllowed = true →
    readValue P bound ⟨text value ++ rest, state, stack⟩ = .ok (value, ⟨rest, state.valueEnd, stack⟩)
  | value, 0, _, _, _, _, hbound, _ => by
    cases value <;> simp [height] at hbound
  | .null, bound + 1, state, stack, rest, _, _, hstate => by
    rw [readValue, show Decoder.Token ⟨text .null ++ rest, state, stack⟩ = _ from if_pos hstate]
    rfl
  | .bool b, bound + 1, state, stack, rest, _, _, hstate => by
    rw [readValue, show Decoder.Token ⟨text (.bool b) ++ rest, state, stack⟩ = _ from if_pos hstate]
    rfl
  | .string s, bound + 1, state, stack, rest, _, _, hstate => by
    rw [readValue, show Decoder.Token ⟨text (.string s) ++ rest, state, stack⟩ = _ from token_string hstate s]
    rfl
  | .int n, bound + 1, state, stack, rest, h, _, hstate => by
    rw [readValue, show Decoder.Token ⟨text (.int n) ++ rest, state, stack⟩ = _ from if_pos hstate]
    exact if_pos h
  | .float (.finite x), bound + 1, state, stack, rest, _, _, hstate => by
    rw [readValue, show Decoder.Token ⟨text (.float (.finite x)) ++ rest, state, stack⟩ = _ from if_pos hstate]
    rfl
  | .array items, bound + 1, state, stack, rest, h, hbound, hstate => by
    rw [Plain] at h
    rw [height] at hbound
    rw [readValue, show Decoder.Token ⟨text (.array items) ++ rest, state, stack⟩ = _ from if_pos hstate]
    show readItems P bound [] ⟨(commas (textItems items) ++ [.closeBracket]) ++ rest, .arrayStart, state :: stack⟩ = _
    rw [List.append_assoc]
    cases items with
    | nil =>
      cases bound with
      | zero => simp [heightItems] at hbound
      | succ bound => rw [readItems]; rfl
    | cons item items =>
      rw [PlainItems] at h
      rw [heightItems] at hbound
      obtain ⟨bound, rfl⟩ : ∃ b, bound = b + 1 := ⟨bound - 1, by omega⟩
      have hvalue := readValue_text item bound .arrayStart (state :: stack)
        (others (textItems items) ++ ([.closeBracket] ++ rest)) h.1 (by omega) rfl
      rw [textItems, commas_cons, List.append_assoc, readItems, if_pos (more_text h.1), hvalue]
      exact readItems_text items [item] bound state stack rest h.2 (by omega)
  | .object fields, bound + 1, state, stack, rest, h, hbound, hstate => by
    rw [Plain] at h
    rw [height] at hbound
    rw [readValue, show Decoder.Token ⟨text (.object fields) ++ rest, state, stack⟩ = _ from if_pos hstate]
    show readFields P bound [] ⟨(commas (textFields fields) ++ [.closeBrace]) ++ rest, .objectStart, state :: stack⟩ = _
    rw [List.append_assoc]
    match fields, h, hbound with
    | [], _, hbound =>
      cases bound with
      | zero => simp [heightFields] at hbound
      | succ bound => rw [readFields]; rfl
    | (key, value) :: fields, h, hbound =>
      rw [PlainFields] at h
      rw [heightFields] at hbound
      obtain ⟨bound, rfl⟩ : ∃ b, bound = b + 1 := ⟨bound - 1, by omega⟩
      have hvalue := readValue_text value bound .objectValue (state :: stack)
        (others (textFields fields) ++ ([.closeBrace] ++ rest)) h.2.1 (by omega) rfl
      rw [textFields, commas_cons, List.append_assoc, readFields, if_pos (show Decoder.More _ = true from rfl)]
      show (readValue P bound ⟨.colon :: (text value ++ _), .objectColon, _⟩ >>= fun p =>
        readFields P bound (setField key p.1 []) p.2) = _
      rw [readValue_colon, hvalue]
      exact readFields_text fields [(key, value)] bound state stack rest h.2.2 (by omega) h.1
  | .float .nan, _ + 1, _, _, _, h, _, _ | .float (.inf _), _ + 1, _, _, _, h, _, _ | .date _, _ + 1, _, _, _, h, _, _
  | .binary _, _ + 1, _, _, _, h, _, _ | .regex _ _, _ + 1, _, _, _, h, _, _
  | .custom _ _, _ + 1, _, _, _, h, _, _ => h.elim

theorem readItems_text : ∀ (items acc : List (Value F)) (bound : ℕ) (outer : TokenState) (stack : List TokenState)
    (rest : List (Lexeme F)), PlainItems P items → heightItems items ≤ bound →
    readItems P bound acc ⟨others (textItems items) ++ .closeBracket :: rest, .arrayComma, outer :: stack⟩ =
      .ok (.array (acc ++ items), ⟨rest, outer.valueEnd, stack⟩)
  | [], acc, bound + 1, outer, stack, rest, _, _ => by
    rw [readItems, List.append_nil]
    rfl
  | item :: items, acc, bound + 1, outer, stack, rest, h, hbound => by
    rw [PlainItems] at h
    rw [heightItems] at hbound
    have hvalue := readValue_text item bound .arrayValue (outer :: stack)
      (others (textItems items) ++ .closeBracket :: rest) h.1 (by omega) rfl
    have hitems := readItems_text items (acc ++ [item]) bound outer stack rest h.2 (by omega)
    rw [textItems, others, List.flatMap_cons, ← others, List.cons_append, List.cons_append, List.append_assoc,
      readItems, if_pos (show Decoder.More _ = true from rfl), readValue_comma, hvalue]
    rw [List.append_assoc] at hitems
    exact hitems
  | items, _, 0, _, _, _, _, hbound => by
    cases items <;> simp [heightItems] at hbound

theorem readFields_text : ∀ (fields acc : List (Str × Value F)) (bound : ℕ) (outer : TokenState)
    (stack : List TokenState) (rest : List (Lexeme F)), PlainFields P fields → heightFields fields ≤ bound →
    ((acc ++ fields).map Prod.fst).Nodup →
    readFields P bound acc ⟨others (textFields fields) ++ .closeBrace :: rest, .objectComma, outer :: stack⟩ =
      .ok (.object (acc ++ fields), ⟨rest, outer.valueEnd, stack⟩)
  | [], acc, bound + 1, outer, stack, rest, _, _, _ => by
    rw [readFields, List.append_nil]
    rfl
  | (key, value) :: fields, acc, bound + 1, outer, stack, rest, h, hbound, hnodup => by
    rw [PlainFields] at h
    rw [heightFields] at hbound
    have hvalue := readValue_text value bound .objectValue (outer :: stack)
      (others (textFields fields) ++ .closeBrace :: rest) h.1 (by omega) rfl
    have hfields := readFields_text fields (acc ++ [(key, value)]) bound outer stack rest h.2 (by omega)
      (by rw [List.append_assoc]; exact hnodup)
    have hfresh : key ∉ acc.map Prod.fst := by
      rw [List.map_append, List.map_cons] at hnodup
      exact fun hin => List.disjoint_of_nodup_append hnodup hin (List.mem_cons_self ..)
    rw [textFields, others, List.flatMap_cons, ← others, List.cons_append, List.cons_append, List.cons_append,
      List.cons_append, List.append_assoc, readFields, if_pos (show Decoder.More _ = true from rfl)]
    show (readValue P bound ⟨.colon :: (text value ++ _), .objectColon, _⟩ >>= fun p =>
      readFields P bound (setField key p.1 acc) p.2) = _
    rw [readValue_colon, hvalue]
    show readFields P bound (setField key value acc) _ = _
    rw [setField_fresh hfresh]
    rw [List.append_assoc] at hfields
    exact hfields
  | fields, _, 0, _, _, _, _, hbound, _ => by
    cases fields <;> simp [heightFields] at hbound

end

theorem length_commas : ∀ xs : List (List (Lexeme F)), xs = [] ∨ (commas xs).length + 1 = (others xs).length
  | [] => .inl rfl
  | x :: xs => by
    refine .inr ?_
    rw [commas_cons, others, others, List.flatMap_cons]
    simp only [List.length_append, List.length_cons]
    omega

theorem height_pos (value : Value F) : 0 < height value := by
  cases value <;> simp only [height] <;> omega

mutual

/-- The bound on what is read is large enough. -/
theorem height_le : ∀ value : Value F, Plain P value → height value ≤ (text value).length
  | .null, _ | .bool _, _ | .string _, _ | .int _, _ | .float (.finite _), _ => le_refl _
  | .array items, h => by
    have hitems := heightItems_le items h
    simp only [height, text, List.length_cons, List.length_append, List.length_nil]
    omega
  | .object fields, h => by
    rw [Plain] at h
    have hfields := heightFields_le fields h.2
    simp only [height, text, List.length_cons, List.length_append, List.length_nil]
    omega
  | .float .nan, h | .float (.inf _), h | .date _, h | .binary _, h | .regex _ _, h | .custom _ _, h => h.elim

theorem heightItems_le : ∀ items : List (Value F), PlainItems P items →
    heightItems items ≤ (commas (textItems items)).length + 1
  | [], _ => le_refl _
  | item :: items, h => by
    rw [PlainItems] at h
    have hitem := height_le item h.1
    have hitems := heightItems_le items h.2
    have hpos := height_pos item
    rw [heightItems, textItems, commas_cons, List.length_append]
    rcases length_commas (textItems items) with hnil | hothers
    · rw [hnil] at hitems ⊢
      simp only [commas, others, List.flatMap_nil, List.length_nil] at hitems ⊢
      omega
    · omega

theorem heightFields_le : ∀ fields : List (Str × Value F), PlainFields P fields →
    heightFields fields ≤ (commas (textFields fields)).length + 1
  | [], _ => le_refl _
  | (key, value) :: fields, h => by
    rw [PlainFields] at h
    have hvalue := height_le value h.1
    have hfields := heightFields_le fields h.2
    rw [heightFields, textFields, commas_cons, List.length_append, List.length_cons, List.length_cons]
    rcases length_commas (textFields fields) with hnil | hothers
    · rw [hnil] at hfields ⊢
      simp only [commas, others, List.flatMap_nil, List.length_nil] at hfields ⊢
      omega
    · omega

end

/-! ## Decoding -/

theorem hasKeys_perm {α β : Type} {fields : List (Str × α)} {fields' : List (Str × β)}
    (h : (fields.map Prod.fst).Perm (fields'.map Prod.fst)) (names : List Str) :
    hasKeys fields names = hasKeys fields' names := by
  have hany : ∀ name, (fields.any fun field => field.1 = name) = fields'.any fun field => field.1 = name :=
    fun name => by
      have hperm := h.any_eq (f := fun key => decide (key = name))
      rw [List.any_map, List.any_map] at hperm
      exact hperm
  have hlength := h.length_eq
  rw [List.length_map, List.length_map] at hlength
  rw [hasKeys, hasKeys, hlength]
  simp only [hany]

theorem tagShape_perm {α β : Type} {fields : List (Str × α)} {fields' : List (Str × β)}
    (h : (fields.map Prod.fst).Perm (fields'.map Prod.fst)) : tagShape fields = tagShape fields' := by
  simp only [tagShape, hasKeys_perm h]

theorem encodeFields_eq_map : ∀ fields : List (Str × Value F),
    encodeFields P canonical fields = fields.map fun field => (field.1, encode P canonical field.2)
  | [] => rfl
  | (_, _) :: fields => by rw [encodeFields, encodeFields_eq_map fields, List.map_cons]

theorem orderedFields_eq_map : ∀ fields : List (Str × Value F),
    orderedFields canonical fields = fields.map fun field => (field.1, ordered canonical field.2)
  | [] => rfl
  | (_, _) :: fields => by rw [orderedFields, orderedFields_eq_map fields, List.map_cons]

theorem keys_encoded (fields : List (Str × Value F)) :
    ((inOrder canonical (encodeFields P canonical fields)).map Prod.fst).Perm (fields.map Prod.fst) := by
  refine ((inOrder_perm _).map Prod.fst).trans ?_
  rw [encodeFields_eq_map, List.map_map]
  exact .refl _

/-- Where every member is decoded, all are. -/
theorem decodeFields_map {α : Type} (g g' : α → Value F) : ∀ fields : List (Str × α),
    (∀ field ∈ fields, decodeValue P factories (g field.2) = .ok (g' field.2)) →
    decodeFields P factories (fields.map fun field => (field.1, g field.2)) =
      .ok (fields.map fun field => (field.1, g' field.2))
  | [], _ => rfl
  | field :: fields, h => by
    rw [List.map_cons, decodeFields, h field (List.mem_cons_self ..)]
    show (decodeFields P factories _ >>= fun rest => Except.ok ((field.1, g' field.2) :: rest)) = _
    rw [decodeFields_map g g' fields fun field hin => h field (List.mem_cons_of_mem _ hin)]
    rfl

theorem decodeFields_encoded (fields : List (Str × Value F))
    (h : ∀ field ∈ fields, decodeValue P factories (encode P canonical field.2) = .ok (ordered canonical field.2)) :
    decodeFields P factories (inOrder canonical (encodeFields P canonical fields)) =
      .ok (inOrder canonical (orderedFields canonical fields)) := by
  rw [encodeFields_eq_map, orderedFields_eq_map, inOrder_map, inOrder_map]
  exact decodeFields_map _ _ _ fun field hin => h field ((inOrder_perm fields).mem_iff.mp hin)

theorem decodeValue_escaped (inner fields : List (Str × Value F))
    (h : decodeFields P factories inner = .ok fields) :
    decodeValue P factories (.object [(str "$escape", .object inner)]) = .ok (.object fields) := by
  rw [decodeValue, if_pos (show hasKeys _ _ = true from rfl), h]
  rfl

theorem decodeValue_object {fields fields' : List (Str × Value F)} (htag : tagShape fields = false)
    (hkeys : (fields'.map Prod.fst).Perm (fields.map Prod.fst))
    (h : decodeFields P factories fields = .ok fields') :
    decodeValue P factories (.object fields) = .ok (.object fields') := by
  have hescape : hasKeys fields [str "$escape"] = false := by
    simp only [tagShape, Bool.or_eq_false_iff] at htag
    exact htag.1.2
  rw [decodeValue.eq_def]
  dsimp only
  rw [if_neg (by rw [hescape]; exact Bool.false_ne_true), h]
  show decodeObject P factories fields' = _
  rw [decodeObject, tagShape_perm hkeys, htag]
  rfl

theorem Standard.urlSafe (hP : Standard P) (data : List UInt8) :
    (P.EncodeToString data).map replaceUrlSafe = P.EncodeToString data := by
  refine (List.map_congr_left fun c hc => ?_).trans (List.map_id _)
  obtain ⟨hminus, hunderscore⟩ := hP.alphabet data c hc
  rw [replaceUrlSafe, if_neg hminus, if_neg hunderscore]
  rfl

theorem inOrder_regex {α : Type} (source flags : α) : inOrder true [(str "$regexp", source), (str "$flags", flags)] =
    [(str "$flags", flags), (str "$regexp", source)] := rfl

theorem inOrder_custom {α : Type} (name inner : α) :
    inOrder canonical [(str "$type", name), (str "$value", inner)] = [(str "$type", name), (str "$value", inner)] := by
  cases canonical <;> rfl

mutual

theorem decodeValue_encode (hP : Standard P) : ∀ value : Value F, Proper P factories canonical value →
    decodeValue P factories (encode P canonical value) = .ok (ordered canonical value)
  | .null, _ | .bool _, _ | .string _, _ | .int _, _ | .float (.finite _), _ => rfl
  | .float .nan, _ | .float (.inf false), _ | .float (.inf true), _ | .date _, _ => rfl
  | .binary data, _ => by
    show (if (utf8 (P.EncodeToString data)).length % 4 ≠ 0 then _ else _) = _
    rw [if_neg (not_not.mpr (hP.length data)), hP.urlSafe data, hP.decode data]
    rfl
  | .regex source flags, h => by
    rw [Proper] at h
    rw [encode]
    cases canonical with
    | false =>
      show Except.ok (Value.regex source (sanitizeFlags flags)) = .ok (.regex source flags)
      rw [h]
    | true =>
      rw [inOrder_regex]
      show Except.ok (Value.regex source (sanitizeFlags flags)) = .ok (.regex source flags)
      rw [h]
  | .array items, h => by
    rw [Proper] at h
    rw [encode, ordered, decodeValue]
    show (decodeItems P factories _ >>= fun items => Except.ok (Value.array items)) = _
    rw [decodeItems_encode hP items h]
    rfl
  | .object fields, h => by
    rw [Proper] at h
    have hfields := decodeFields_encoded fields (decodeFields_encode hP fields h.2)
    rw [encode, ordered]
    cases htag : tagShape fields with
    | true => exact decodeValue_escaped _ _ hfields
    | false =>
      refine decodeValue_object ((tagShape_perm (keys_encoded fields)).trans htag) ?_ hfields
      refine ((inOrder_perm _).map Prod.fst).trans (.trans ?_ (keys_encoded fields).symm)
      rw [orderedFields_eq_map, List.map_map]
      exact .refl _
  | .custom name inner, h => by
    rw [Proper] at h
    obtain ⟨hinner, factory, hfactory, hrebuilds⟩ := h
    have hvalue := decodeValue_encode hP inner hinner
    rw [encode, inOrder_custom, decodeValue.eq_def]
    show (decodeFields P factories [_, _] >>= decodeObject P factories) = _
    rw [decodeFields, decodeFields, hvalue]
    show (match factories name with
      | some factory => factory (ordered canonical inner)
      | none => _) = _
    rw [hfactory]
    exact hrebuilds

theorem decodeItems_encode (hP : Standard P) : ∀ items : List (Value F), ProperItems P factories canonical items →
    decodeItems P factories (encodeItems P canonical items) = .ok (orderedItems canonical items)
  | [], _ => rfl
  | item :: items, h => by
    rw [ProperItems] at h
    rw [encodeItems, decodeItems, decodeValue_encode hP item h.1]
    show (decodeItems P factories _ >>= fun rest => Except.ok (ordered canonical item :: rest)) = _
    rw [decodeItems_encode hP items h.2]
    rfl

theorem decodeFields_encode (hP : Standard P) : ∀ fields : List (Str × Value F),
    ProperFields P factories canonical fields →
    ∀ field ∈ fields, decodeValue P factories (encode P canonical field.2) = .ok (ordered canonical field.2)
  | [], _ => fun field hin => by cases hin
  | (key, value) :: fields, h => fun field hin => by
    rw [ProperFields] at h
    rcases List.mem_cons.mp hin with rfl | hin
    · exact decodeValue_encode hP value h.1
    · exact decodeFields_encode hP fields h.2 field hin

end

/-! ## The round trip -/

theorem plain_inOrder {fields : List (Str × Value F)} (h : PlainFields P fields) :
    PlainFields P (inOrder canonical fields) := by
  have hall : ∀ fields : List (Str × Value F), PlainFields P fields ↔ ∀ field ∈ fields, Plain P field.2 := by
    intro fields
    induction fields with
    | nil => simp [PlainFields]
    | cons field fields ih => simp [PlainFields, ih]
  rw [hall] at h ⊢
  exact fun field hin => h field ((inOrder_perm fields).mem_iff.mp hin)

mutual

theorem plain_encode : ∀ value : Value F, Proper P factories canonical value → Plain P (encode P canonical value)
  | .null, _ | .bool _, _ | .string _, _ => trivial
  | .int n, h => h
  | .float (.finite x), h => h
  | .float .nan, _ => ⟨List.nodup_singleton _, show Int64 0 by decide, trivial⟩
  | .float (.inf false), _ => ⟨List.nodup_singleton _, show Int64 1 by decide, trivial⟩
  | .float (.inf true), _ => ⟨List.nodup_singleton _, show Int64 (-1) by decide, trivial⟩
  | .date n, h => ⟨List.nodup_singleton _, h, trivial⟩
  | .binary data, _ => ⟨List.nodup_singleton _, trivial, trivial⟩
  | .regex source flags, _ => by
    rw [encode, Plain]
    have hnodup : [str "$regexp", str "$flags"].Nodup := by decide
    exact ⟨((inOrder_perm _).map Prod.fst).nodup_iff.mpr hnodup, plain_inOrder ⟨trivial, trivial, trivial⟩⟩
  | .array items, h => by
    rw [Proper] at h
    exact plain_encodeItems items h
  | .object fields, h => by
    rw [Proper] at h
    have hobject : Plain P (.object (inOrder canonical (encodeFields P canonical fields))) :=
      ⟨(keys_encoded fields).nodup_iff.mpr h.1, plain_inOrder (plain_encodeFields fields h.2)⟩
    rw [encode]
    cases tagShape fields with
    | true => exact ⟨List.nodup_singleton _, hobject, trivial⟩
    | false => exact hobject
  | .custom name inner, h => by
    rw [Proper] at h
    rw [encode, inOrder_custom]
    have hnodup : [str "$type", str "$value"].Nodup := by decide
    exact ⟨hnodup, trivial, plain_encode inner h.1, trivial⟩

theorem plain_encodeItems : ∀ items : List (Value F), ProperItems P factories canonical items →
    PlainItems P (encodeItems P canonical items)
  | [], _ => trivial
  | item :: items, h => by
    rw [ProperItems] at h
    exact ⟨plain_encode item h.1, plain_encodeItems items h.2⟩

theorem plain_encodeFields : ∀ fields : List (Str × Value F), ProperFields P factories canonical fields →
    PlainFields P (encodeFields P canonical fields)
  | [], _ => trivial
  | (key, value) :: fields, h => by
    rw [ProperFields] at h
    exact ⟨plain_encode value h.1, plain_encodeFields fields h.2⟩

end

mutual

theorem ordered_false : ∀ value : Value F, ordered false value = value
  | .array items => by rw [ordered, orderedItems_false items]
  | .object fields => by rw [ordered, orderedFields_false fields]; rfl
  | .custom name inner => by rw [ordered, ordered_false inner]
  | .null | .bool _ | .int _ | .float _ | .string _ | .date _ | .binary _ | .regex _ _ => rfl

theorem orderedItems_false : ∀ items : List (Value F), orderedItems false items = items
  | [] => rfl
  | item :: items => by rw [orderedItems, ordered_false item, orderedItems_false items]

theorem orderedFields_false : ∀ fields : List (Str × Value F), orderedFields false fields = fields
  | [] => rfl
  | (key, value) :: fields => by rw [orderedFields, ordered_false value, orderedFields_false fields]

end

/-- The text of a value is parsed, and gives the value, in canonical text with its keys sorted. -/
theorem parse_Stringify (hP : Standard P) {value : Value F} (h : Proper P factories canonical value) :
    Parse P factories (Stringify P canonical value) = .ok (ordered canonical value) ∧
      (canonical = false → ordered canonical value = value) := by
  refine ⟨?_, fun hcanonical => hcanonical ▸ ordered_false value⟩
  have hplain := plain_encode value h
  have hread := readValue_text (encode P canonical value) ((text (encode P canonical value)).length + 1) .topValue [] []
    hplain (Nat.le_succ_of_le (height_le _ hplain)) rfl
  rw [List.append_nil] at hread
  rw [Parse, Stringify, writeValue_eq value h, hread]
  exact decodeValue_encode hP value h

end

/-! ### A platform -/

/-- Numbers are rational. -/
def rational : Platform ℚ where
  integer x := if x.den = 1 then some x.num else none
  nearest n := some n
  EncodeToString := Ejson.Base64.encodeChars
  DecodeString := Ejson.Base64.decodeChars

theorem standard_rational : Standard rational where
  decode := Ejson.Base64.decodeChars_encodeChars
  length data := by
    show (utf8 (Ejson.Base64.encodeChars data)).length % 4 = 0
    have hlength : (utf8 (Ejson.Base64.encodeChars data)).length = (Ejson.Base64.encodeChars data).length := by
      rw [utf8, List.length_flatMap, List.map_congr_left (g := fun _ => 1)
        fun c hc => (Ejson.Base64.mem_encodeChars hc).1]
      simp
    rw [hlength, Ejson.Base64.length_encodeChars]
    omega
  alphabet _ _ hc := (Ejson.Base64.mem_encodeChars hc).2

/-- Every level looks like a tag. -/
def lookAlike : Value ℚ :=
  .object [(str "$value", .custom (str "t") (.object [(str "$date", .float (.finite (1 / 2)))])),
    (str "$type", .object [(str "$escape", .binary [1, 2])])]

def rebuilds (name : Str) : Option (Value ℚ → Except Error (Value ℚ)) :=
  if name = str "t" then some fun inner => .ok (.custom name inner) else none

theorem parse_Stringify_lookAlike :
    Parse rational rebuilds (Stringify rational true lookAlike) = .ok (ordered true lookAlike) := by
  refine (@parse_Stringify ℚ rational rebuilds true standard_rational lookAlike ?_).1
  have hhalf : rational.integer (1 / 2) = none := by decide +kernel
  simp only [lookAlike, Proper, ProperFields, hhalf]
  exact ⟨by decide, ⟨⟨by decide, trivial, trivial⟩, _, rfl, rfl⟩, ⟨by decide, trivial, trivial⟩, trivial⟩

end TypeFerry.Go.EjsonRoundTrip
