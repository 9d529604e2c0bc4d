import TypeFerry.Ejson.Ports
import TypeFerry.Ejson.WireEquality
import TypeFerry.Go.EjsonRoundTrip

/-! # One canonical format

The four ports write the same text for a value exactly if no key of it is lost or enumerated in
another order by the objects of TypeScript, and no object of it is escaped by Go. -/
namespace TypeFerry.Ejson.OneFormat
open TypeFerry.Lib.Numeral TypeFerry.Lib.Unicode TypeFerry.Ejson.Ports
open TypeFerry.Lib.JsonText hiding Json
open TypeFerry.Ejson.Canonical (textLe arrayIndex?)

/-! ## Values -/

mutual

/-- Safe integers, and objects with distinct keys. -/
def Valid : Json → Prop
  | .int n => n.natAbs ≤ 2 ^ 53 - 1
  | .array items => ValidItems items
  | .object fields => (fields.map Prod.fst).Nodup ∧ ValidFields fields
  | _ => True

def ValidItems : List Json → Prop
  | [] => True
  | item :: items => Valid item ∧ ValidItems items

def ValidFields : List (Str × Json) → Prop
  | [] => True
  | (_, value) :: fields => Valid value ∧ ValidFields fields

end

mutual

/-- What `JSON.parse` gives. -/
def tree : Json → Lib.JsonText.Json
  | .null => .null
  | .bool b => .bool b
  | .int n => .num (ofInt n)
  | .string s => .str (utf16 s)
  | .array items => .arr (treeItems items)
  | .object fields => .obj (treeFields fields)

def treeItems : List Json → List Lib.JsonText.Json
  | [] => []
  | item :: items => tree item :: treeItems items

def treeFields : List (Str × Json) → List (Text × Lib.JsonText.Json)
  | [] => []
  | (key, value) :: fields => (utf16 key, tree value) :: treeFields fields

end

mutual

/-- Equal but for the order of keys. -/
def Equal : Json → Json → Prop
  | .array items, .array items' => EqualItems items items'
  | .object fields, .object fields' => fields.length = fields'.length ∧ EqualFields fields fields'
  | value, value' => value = value'

def EqualItems : List Json → List Json → Prop
  | [], [] => True
  | item :: items, item' :: items' => Equal item item' ∧ EqualItems items items'
  | _, _ => False

def EqualFields : List (Str × Json) → List (Str × Json) → Prop
  | [], _ => True
  | (key, value) :: fields, fields' =>
    (∃ field ∈ fields', field.1 = key ∧ Equal value field.2) ∧ EqualFields fields fields'

end

mutual

/-- The keys of every object are in the order of their code points. -/
def Sorted : Json → Prop
  | .array items => SortedItems items
  | .object fields => (fields.map Prod.fst).Pairwise (· < ·) ∧ SortedFields fields
  | _ => True

def SortedItems : List Json → Prop
  | [] => True
  | item :: items => Sorted item ∧ SortedItems items

def SortedFields : List (Str × Json) → Prop
  | [] => True
  | (_, value) :: fields => Sorted value ∧ SortedFields fields

end

/-- All ports write one text, which is read back, and in which the keys are sorted. -/
def OneText (value : Json) : Prop :=
  ∃ text, TypeScript.stableStringify value = some text ∧ Python.stableStringify value = text ∧
    Rust.stringify value = text ∧ Go.stringify value = text ∧
    ∃ value', parse text = some (tree value') ∧ Equal value' value ∧ Sorted value'

/-! ## Ordinary values -/

/-- An object of TypeScript enumerates `a` before `b`: array indices by their numbers, then the other
keys, which were assigned in the order of their code units. -/
def before (a b : Str) : Bool :=
  match arrayIndex? (utf16 a), arrayIndex? (utf16 b) with
  | some m, some n => m ≤ n
  | some _, none => true
  | none, some _ => false
  | none, none => textLe (utf16 a) (utf16 b)

/-- No key is lost, and the keys are enumerated in the order of their code points. -/
def Listed (keys : List Str) : Prop :=
  str "__proto__" ∉ keys ∧ ∀ a ∈ keys, ∀ b ∈ keys, a < b → before a b = true

mutual

def Ordinary : Json → Prop
  | .array items => OrdinaryItems items
  | .object fields => Listed (fields.map Prod.fst) ∧ OrdinaryFields fields
  | _ => True

def OrdinaryItems : List Json → Prop
  | [] => True
  | item :: items => Ordinary item ∧ OrdinaryItems items

def OrdinaryFields : List (Str × Json) → Prop
  | [] => True
  | (_, value) :: fields => Ordinary value ∧ OrdinaryFields fields

end

mutual

/-- No object has the keys of a tag. -/
def Untagged : Json → Prop
  | .array items => UntaggedItems items
  | .object fields => TypeFerry.Go.Ejson.tagShape fields = false ∧ UntaggedFields fields
  | _ => True

def UntaggedItems : List Json → Prop
  | [] => True
  | item :: items => Untagged item ∧ UntaggedItems items

def UntaggedFields : List (Str × Json) → Prop
  | [] => True
  | (_, value) :: fields => Untagged value ∧ UntaggedFields fields

end

/-! ## The text of a tree -/

theorem treeItems_eq_map : ∀ items : List Json, treeItems items = items.map tree
  | [] => rfl
  | item :: items => by rw [treeItems, treeItems_eq_map items, List.map_cons]

theorem treeFields_eq_map : ∀ fields : List (Str × Json),
    treeFields fields = fields.map fun field => (utf16 field.1, tree field.2)
  | [] => rfl
  | (_, _) :: fields => by rw [treeFields, treeFields_eq_map fields, List.map_cons]

/-- Integers are written with all of their digits. -/
theorem toText_ofInt {n : ℤ} (h : n.natAbs < 10 ^ 21) : (ofInt n).toText = intText n := by
  obtain ⟨hexp, hvalue, hneg⟩ := ofInt_spec n
  rcases eq_or_ne n 0 with rfl | hn
  · decide
  have hpos : n.natAbs ≠ 0 := Int.natAbs_ne_zero.mpr hn
  have hsig : (ofInt n).sig ≠ 0 := by
    intro hzero
    rw [hzero, Nat.zero_mul] at hvalue
    exact hpos hvalue.symm
  obtain ⟨e, he⟩ := Int.eq_ofNat_of_zero_le hexp
  rw [he, Int.toNat_natCast] at hvalue
  have hdigits : digitsOf n.natAbs = digitsOf (ofInt n).sig ++ List.replicate e 0 := by
    rw [digitsOf, if_neg hpos, digitsOf, if_neg hsig, ← hvalue, Nat.mul_comm,
      Nat.digits_base_pow_mul (by decide) (Nat.pos_of_ne_zero hsig), List.reverse_append, List.reverse_replicate]
  have hlength : (digitsOf n.natAbs).length ≤ 21 := by
    rw [digitsOf, if_neg hpos, List.length_reverse]
    exact (Nat.digits_length_le_iff (by decide) _).mpr h
  have hsum : (digitsOf n.natAbs).length = (digitsOf (ofInt n).sig).length + e := by
    rw [hdigits, List.length_append, List.length_replicate]
  rw [Decimal.toText, he, hneg]
  rw [if_neg hsig, if_pos (by omega), numeral, intText, hdigits]
  simp [fracText, expText]

theorem join_items : ∀ (items : List Json), (∀ item ∈ items, dumps item = stringify (tree item)) → ∀ x : Text,
    separated (x :: dumpsItems items) ++ js "]" = x ++ stringifyElems (treeItems items)
  | [], _, _ => rfl
  | item :: items, h, x => by
    rw [dumpsItems, separated, treeItems, stringifyElems, List.append_assoc,
      join_items items (fun item hin => h item (List.mem_cons_of_mem _ hin)), h item (List.mem_cons_self ..),
      List.append_assoc]
    exact List.cons_ne_nil _ _

theorem join_fields : ∀ (fields : List (Str × Json)), (∀ field ∈ fields, dumps field.2 = stringify (tree field.2)) →
    ∀ x : Text, separated (x :: dumpsFields fields) ++ js "\x7d" = x ++ stringifyMembers (treeFields fields)
  | [], _, _ => rfl
  | (key, value) :: fields, h, x => by
    rw [dumpsFields, separated, treeFields, stringifyMembers, List.append_assoc,
      join_fields fields (fun field hin => h field (List.mem_cons_of_mem _ hin)), h (key, value) (List.mem_cons_self ..)]
    · simp only [stringText, List.append_assoc]
    · exact List.cons_ne_nil _ _

mutual

theorem dumps_eq : ∀ value : Json, Valid value → dumps value = stringify (tree value)
  | .null, _ | .bool true, _ | .bool false, _ | .string _, _ => rfl
  | .int n, h => by
    rw [Valid] at h
    exact (toText_ofInt (by omega)).symm
  | .array [], _ => rfl
  | .array (item :: items), h => by
    rw [Valid, ValidItems] at h
    rw [dumps, dumpsItems, List.append_assoc, join_items items (dumps_items items h.2), dumps_eq item h.1]
    rfl
  | .object [], _ => rfl
  | .object ((key, value) :: fields), h => by
    rw [Valid, ValidFields] at h
    rw [dumps, dumpsFields, List.append_assoc, join_fields fields (dumps_fields fields h.2.2), dumps_eq value h.2.1]
    simp only [tree, treeFields, stringify, stringText, List.append_assoc]

theorem dumps_items : ∀ items : List Json, ValidItems items → ∀ item ∈ items, dumps item = stringify (tree item)
  | [], _ => fun item hin => by cases hin
  | item :: items, h => fun item' hin => by
    rw [ValidItems] at h
    rcases List.mem_cons.mp hin with heq | hin
    · rw [heq]
      exact dumps_eq item h.1
    · exact dumps_items items h.2 item' hin

theorem dumps_fields : ∀ fields : List (Str × Json), ValidFields fields →
    ∀ field ∈ fields, dumps field.2 = stringify (tree field.2)
  | [], _ => fun field hin => by cases hin
  | (key, value) :: fields, h => fun field hin => by
    rw [ValidFields] at h
    rcases List.mem_cons.mp hin with heq | hin
    · rw [heq]
      exact dumps_eq value h.1
    · exact dumps_fields fields h.2 field hin

end

/-! ## Sorting -/

section
variable {sort sort' : List (Str × Json) → List (Str × Json)}

theorem sortItems_eq_map : ∀ items : List Json, sortItems sort items = items.map (sortValue sort)
  | [] => rfl
  | item :: items => by rw [sortItems, sortItems_eq_map items, List.map_cons]

theorem sortMembers_eq_map : ∀ fields : List (Str × Json),
    sortMembers sort fields = fields.map fun field => (field.1, sortValue sort field.2)
  | [] => rfl
  | (_, _) :: fields => by rw [sortMembers, sortMembers_eq_map fields, List.map_cons]

theorem sorted_eq (fields : List (Str × Json)) : Python.sorted fields = sortFields fields := by
  rw [Python.sorted, sortFields]
  congr 1
  funext f g
  exact propext keyLe_iff.symm

end

/-- `stableStringify` lists the members that were assigned in the order of code units. -/
def listed {α : Type} (fields : List (Str × α)) : List (Str × α) :=
  let assigned := (fields.insertionSort fun f g => textLe (utf16 f.1) (utf16 g.1)).filter
    fun f => decide (f.1 ≠ str "__proto__")
  (assigned.filter fun f => (arrayIndex? (utf16 f.1)).isSome).insertionSort
      (fun f g => (arrayIndex? (utf16 f.1)).getD 0 ≤ (arrayIndex? (utf16 g.1)).getD 0) ++
    assigned.filter fun f => (arrayIndex? (utf16 f.1)).isNone

theorem listed_map {α β : Type} (g : α → β) (fields : List (Str × α)) :
    listed (fields.map fun field => (field.1, g field.2)) = (listed fields).map fun field => (field.1, g field.2) := by
  have hsort := List.map_insertionSort (fun f g : Str × α => textLe (utf16 f.1) (utf16 g.1) = true)
    (s := fun f g : Str × β => textLe (utf16 f.1) (utf16 g.1) = true) (fun field => (field.1, g field.2)) fields
    fun _ _ _ _ => Iff.rfl
  have hindex := fun assigned : List (Str × α) => List.map_insertionSort
    (fun f g : Str × α => (arrayIndex? (utf16 f.1)).getD 0 ≤ (arrayIndex? (utf16 g.1)).getD 0)
    (s := fun f g : Str × β => (arrayIndex? (utf16 f.1)).getD 0 ≤ (arrayIndex? (utf16 g.1)).getD 0)
    (fun field => (field.1, g field.2)) assigned fun _ _ _ _ => Iff.rfl
  rw [listed, listed, ← hsort]
  simp only [List.filter_map, List.map_append, hindex]
  rfl

/-! ### TypeScript -/

section
open TypeFerry.Ejson.Clone TypeFerry.Ejson.Convert TypeFerry.Ejson.Encode TypeFerry.Ejson.WireEquality

theorem toItems_eq_map : ∀ items : List Json, TypeScript.toItems items = items.map TypeScript.toValue
  | [] => rfl
  | item :: items => by rw [TypeScript.toItems, toItems_eq_map items, List.map_cons]

/-- A member as an object of TypeScript has it. -/
def member (field : Str × Json) : Text × Value := (utf16 field.1, TypeScript.toValue field.2)

theorem toMembers_eq_map : ∀ fields : List (Str × Json), TypeScript.toMembers fields = fields.map member
  | [] => rfl
  | (_, _) :: fields => by rw [TypeScript.toMembers, toMembers_eq_map fields, List.map_cons]; rfl

theorem toValue_defined (value : Json) : (TypeScript.toValue value).isUndefined = false := by
  cases value <;> rfl

/-- Assigning to `__proto__` leaves no member. -/
theorem foldl_assign_filter : ∀ ms acc : List (Text × Value),
    ms.foldl (fun acc m => assign m.1 m.2 acc) acc =
      (ms.filter fun m => decide (m.1 ≠ js "__proto__")).foldl (fun acc m => assign m.1 m.2 acc) acc
  | [], _ => rfl
  | m :: ms, acc => by
    rw [List.foldl_cons, foldl_assign_filter ms]
    by_cases h : m.1 = js "__proto__"
    · rw [assign, if_pos h, List.filter_cons_of_neg (by simpa using h)]
    · rw [List.filter_cons_of_pos (by simpa using h), List.foldl_cons]

theorem proto_iff (key : Str) : utf16 key ≠ js "__proto__" ↔ key ≠ str "__proto__" := by
  have hproto : js "__proto__" = utf16 (str "__proto__") := by decide
  rw [hproto]
  exact not_congr ⟨fun h => utf16_injective h, fun h => h ▸ rfl⟩

theorem rebuild_members {fields : List (Str × Json)} (h : (fields.map Prod.fst).Nodup) :
    Canonical.rebuild (fields.map member) = (listed fields).map member := by
  have hsort := List.map_insertionSort (fun f g : Str × Json => textLe (utf16 f.1) (utf16 g.1) = true)
    (s := fun m n : Text × Value => textLe m.1 n.1 = true) member fields fun _ _ _ _ => Iff.rfl
  have hindex := fun assigned : List (Str × Json) => List.map_insertionSort
    (fun f g : Str × Json => (arrayIndex? (utf16 f.1)).getD 0 ≤ (arrayIndex? (utf16 g.1)).getD 0)
    (s := fun m n : Text × Value => (arrayIndex? m.1).getD 0 ≤ (arrayIndex? n.1).getD 0)
    member assigned fun _ _ _ _ => Iff.rfl
  rw [Canonical.rebuild, ← hsort]
  generalize hL : fields.insertionSort (fun f g => textLe (utf16 f.1) (utf16 g.1) = true) = L
  have hperm : L.Perm fields := hL ▸ List.perm_insertionSort _ _
  have hdefined : (L.map member).filter (fun m => !m.2.isUndefined) = L.map member := by
    refine List.filter_eq_self.mpr fun m hm => ?_
    obtain ⟨field, _, rfl⟩ := List.mem_map.mp hm
    rw [member, toValue_defined]
    rfl
  have hfilter : (L.map member).filter (fun m => decide (m.1 ≠ js "__proto__")) =
      (L.filter fun f => decide (f.1 ≠ str "__proto__")).map member := by
    rw [List.filter_map]
    congr 1
    exact List.filter_congr fun f _ => decide_eq_decide.mpr (proto_iff f.1)
  have hkeys : (((L.filter fun f => decide (f.1 ≠ str "__proto__")).map member).map Prod.fst).Nodup := by
    rw [List.map_map]
    have hnodup : ((L.filter fun f => decide (f.1 ≠ str "__proto__")).map Prod.fst).Nodup :=
      ((hperm.map Prod.fst).nodup_iff.mpr h).sublist (List.filter_sublist.map _)
    have hinj := hnodup.map (f := utf16) fun _ _ => utf16_injective
    rw [List.map_map] at hinj
    exact hinj
  have hproto : js "__proto__" ∉ ((L.filter fun f => decide (f.1 ≠ str "__proto__")).map member).map Prod.fst := by
    intro hin
    obtain ⟨m, hm, heq⟩ := List.mem_map.mp hin
    obtain ⟨f, hf, rfl⟩ := List.mem_map.mp hm
    exact (proto_iff f.1).mpr (of_decide_eq_true (List.mem_filter.mp hf).2) heq
  have hset := foldl_assign id _ [] (by simpa using hkeys) hproto
  simp only [id_eq, List.nil_append, Prod.mk.eta, List.map_id'] at hset
  rw [hdefined, foldl_assign_filter, hfilter, hset, Canonical.enumerate, listed, hL]
  simp only [List.filter_map, List.map_append, hindex]
  rfl

theorem keys_sortMembers (sort : List (Str × Json) → List (Str × Json)) (fields : List (Str × Json)) :
    (Ports.sortMembers sort fields).map Prod.fst = fields.map Prod.fst := by
  rw [OneFormat.sortMembers_eq_map, List.map_map]
  rfl

mutual

theorem sortJsonValue_toValue : ∀ value : Json, Valid value →
    Canonical.sortJsonValue (TypeScript.toValue value) = TypeScript.toValue (sortValue listed value)
  | .null, _ | .bool _, _ | .int _, _ | .string _, _ => rfl
  | .array items, h => by
    rw [Valid] at h
    rw [TypeScript.toValue, Canonical.sortJsonValue, sortElems_toItems items h, sortValue, TypeScript.toValue]
  | .object fields, h => by
    rw [Valid] at h
    rw [TypeScript.toValue, Canonical.sortJsonValue, sortMembers_toMembers fields h.2, sortValue, TypeScript.toValue,
      toMembers_eq_map, toMembers_eq_map, rebuild_members (by rw [keys_sortMembers]; exact h.1)]

theorem sortElems_toItems : ∀ items : List Json, ValidItems items →
    Canonical.sortElems (TypeScript.toItems items) = TypeScript.toItems (Ports.sortItems listed items)
  | [], _ => rfl
  | item :: items, h => by
    rw [ValidItems] at h
    rw [TypeScript.toItems, Canonical.sortElems, sortJsonValue_toValue item h.1, sortElems_toItems items h.2,
      Ports.sortItems, TypeScript.toItems]

theorem sortMembers_toMembers : ∀ fields : List (Str × Json), ValidFields fields →
    Canonical.sortMembers (TypeScript.toMembers fields) = TypeScript.toMembers (Ports.sortMembers listed fields)
  | [], _ => rfl
  | (key, value) :: fields, h => by
    rw [ValidFields] at h
    rw [TypeScript.toMembers, Canonical.sortMembers, sortJsonValue_toValue value h.1, sortMembers_toMembers fields h.2,
      Ports.sortMembers, TypeScript.toMembers]

end

mutual

theorem toValue_eq : ∀ value : Json, TypeScript.toValue value = ofJson (tree value)
  | .null | .bool _ | .int _ | .string _ => rfl
  | .array items => by rw [TypeScript.toValue, tree, ofJson, toItems_eq items]
  | .object fields => by rw [TypeScript.toValue, tree, ofJson, toMembers_eq fields]

theorem toItems_eq : ∀ items : List Json, TypeScript.toItems items = ofJsonElems (treeItems items)
  | [] => rfl
  | item :: items => by rw [TypeScript.toItems, treeItems, ofJsonElems, toValue_eq item, toItems_eq items]

theorem toMembers_eq : ∀ fields : List (Str × Json), TypeScript.toMembers fields = ofJsonMembers (treeFields fields)
  | [] => rfl
  | (key, value) :: fields => by
    rw [TypeScript.toMembers, treeFields, ofJsonMembers, toValue_eq value, toMembers_eq fields]

end

theorem typeScript_text {value : Json} (h : Valid value) :
    TypeScript.stableStringify value = some (stringify (tree (sortValue listed value))) := by
  rw [TypeScript.stableStringify, Canonical.stableStringify, sortJsonValue_toValue value h, toValue_eq,
    toJson?_ofJson, Option.map_some]

end

/-! ### Its order and that of code points -/

section
variable {α : Type}

theorem before_antisymm {a b : Str} (h : before a b = true) (h' : before b a = true) : a = b := by
  have hindex : ∀ {a : Str} {n : ℕ}, arrayIndex? (utf16 a) = some n → utf16 a = Clone.indexText n := by
    intro a n hn
    rw [arrayIndex?] at hn
    split at hn
    · next hif => rw [← Option.some.inj hn, hif.1]
    · cases hn
  rw [before] at h h'
  cases ha : arrayIndex? (utf16 a) with
  | none =>
    cases hb : arrayIndex? (utf16 b) with
    | none =>
      rw [ha, hb] at h h'
      exact utf16_injective (Canonical.textLe_antisymm h h')
    | some n =>
      rw [ha, hb] at h
      cases h
  | some m =>
    cases hb : arrayIndex? (utf16 b) with
    | none =>
      rw [ha, hb] at h'
      cases h'
    | some n =>
      rw [ha, hb] at h h'
      have hmn : m = n := Nat.le_antisymm (of_decide_eq_true h) (of_decide_eq_true h')
      exact utf16_injective ((hindex ha).trans (hmn ▸ (hindex hb).symm))

theorem listed_pairwise (fields : List (Str × α)) : (listed fields).Pairwise fun f g => before f.1 g.1 = true := by
  have htotal : Std.Total fun f g : Str × α => textLe (utf16 f.1) (utf16 g.1) = true :=
    ⟨fun _ _ => Canonical.textLe_total _ _⟩
  have htrans : IsTrans (Str × α) fun f g => textLe (utf16 f.1) (utf16 g.1) = true :=
    ⟨fun _ _ _ h h' => Canonical.textLe_trans h h'⟩
  have htotal' : Std.Total fun f g : Str × α =>
      (arrayIndex? (utf16 f.1)).getD 0 ≤ (arrayIndex? (utf16 g.1)).getD 0 := ⟨fun _ _ => Nat.le_total _ _⟩
  have htrans' : IsTrans (Str × α) fun f g =>
      (arrayIndex? (utf16 f.1)).getD 0 ≤ (arrayIndex? (utf16 g.1)).getD 0 := ⟨fun _ _ _ h h' => Nat.le_trans h h'⟩
  rw [listed]
  generalize hassigned : (fields.insertionSort fun f g => textLe (utf16 f.1) (utf16 g.1)).filter
    (fun f => decide (f.1 ≠ str "__proto__")) = assigned
  have hunits : assigned.Pairwise fun f g => textLe (utf16 f.1) (utf16 g.1) = true :=
    hassigned ▸ (List.pairwise_insertionSort _ fields).filter _
  have hsome : ∀ f ∈ (assigned.filter fun f => (arrayIndex? (utf16 f.1)).isSome).insertionSort
      (fun f g => (arrayIndex? (utf16 f.1)).getD 0 ≤ (arrayIndex? (utf16 g.1)).getD 0),
      ∃ n, arrayIndex? (utf16 f.1) = some n := fun f hf =>
    Option.isSome_iff_exists.mp (List.mem_filter.mp ((List.perm_insertionSort _ _).mem_iff.mp hf)).2
  have hnone : ∀ f ∈ assigned.filter (fun f => (arrayIndex? (utf16 f.1)).isNone), arrayIndex? (utf16 f.1) = none :=
    fun f hf => Option.isNone_iff_eq_none.mp (List.mem_filter.mp hf).2
  refine List.pairwise_append.mpr ⟨?_, ?_, ?_⟩
  · refine (List.pairwise_insertionSort _ _).imp_of_mem fun hf hg hle => ?_
    obtain ⟨m, hm⟩ := hsome _ hf
    obtain ⟨n, hn⟩ := hsome _ hg
    rw [hm, hn] at hle
    rw [before, hm, hn]
    exact decide_eq_true hle
  · refine (hunits.filter _).imp_of_mem fun hf hg hle => ?_
    rw [before, hnone _ hf, hnone _ hg]
    exact hle
  · intro f hf g hg
    obtain ⟨m, hm⟩ := hsome _ hf
    rw [before, hm, hnone _ hg]

theorem listed_perm (fields : List (Str × α)) :
    (listed fields).Perm (fields.filter fun f => decide (f.1 ≠ str "__proto__")) := by
  have hrest : ∀ assigned : List (Str × α), (assigned.filter fun f => (arrayIndex? (utf16 f.1)).isNone) =
      assigned.filter fun f => !(arrayIndex? (utf16 f.1)).isSome := fun assigned => by simp
  rw [listed, hrest]
  refine ((List.perm_insertionSort _ _).append_right _).trans ((List.filter_append_perm _ _).trans ?_)
  exact (List.perm_insertionSort _ _).filter _

/-- The members are listed in the order of code points exactly if their keys say so. -/
theorem listed_eq_iff {fields : List (Str × α)} (h : (fields.map Prod.fst).Nodup) :
    listed fields = sortFields fields ↔ Listed (fields.map Prod.fst) := by
  have hsorted := sortFields_sorted h
  constructor
  · intro heq
    have hperm := (sortFields_perm fields).map Prod.fst
    have hproto : str "__proto__" ∉ fields.map Prod.fst := fun hin => by
      obtain ⟨f, hf, hkey⟩ := List.mem_map.mp hin
      have hmem := (listed_perm fields).mem_iff.mp (heq ▸ (sortFields_perm fields).mem_iff.mpr hf)
      exact of_decide_eq_true (List.mem_filter.mp hmem).2 hkey
    refine ⟨hproto, fun a ha b hb hlt => ?_⟩
    have hbefore : ((sortFields fields).map Prod.fst).Pairwise fun a b => before a b = true :=
      (heq ▸ listed_pairwise fields).map _ fun _ _ h => h
    have hboth := (hsorted.and hbefore).imp (S := fun a b => a < b ∧ before a b = true ∨ b < a ∧ before b a = true) .inl
    have hsymm : Std.Symm fun a b => a < b ∧ before a b = true ∨ b < a ∧ before b a = true :=
      ⟨fun _ _ h => h.symm⟩
    have hab := hboth.forall (hperm.mem_iff.mpr ha) (hperm.mem_iff.mpr hb)
      fun heq => List.lt_irrefl _ (heq ▸ hlt)
    exact (hab.resolve_right fun hba => List.lt_asymm hlt hba.1).2
  · rintro ⟨hproto, hbefore⟩
    have hall : fields.filter (fun f => decide (f.1 ≠ str "__proto__")) = fields :=
      List.filter_eq_self.mpr fun f hf => decide_eq_true fun heq => hproto (List.mem_map.mpr ⟨f, hf, heq⟩)
    have hperm : (listed fields).Perm (sortFields fields) :=
      (hall ▸ listed_perm fields).trans (sortFields_perm fields).symm
    have hpairwise : (sortFields fields).Pairwise fun f g => before f.1 g.1 = true := by
      refine (List.pairwise_map.mp hsorted).imp_of_mem fun hf hg hlt => ?_
      exact hbefore _ (List.mem_map_of_mem ((sortFields_perm fields).mem_iff.mp hf)) _
        (List.mem_map_of_mem ((sortFields_perm fields).mem_iff.mp hg)) hlt
    refine hperm.eq_of_pairwise ?_ (listed_pairwise fields) hpairwise
    intro f g hf hg hfg hgf
    have hf' := (sortFields_perm fields).mem_iff.mp (hperm.mem_iff.mp hf)
    have hg' := (sortFields_perm fields).mem_iff.mp hg
    exact List.inj_on_of_nodup_map h hf' hg' (before_antisymm hfg hgf)

theorem listed_map_eq_iff {β : Type} {fields : List (Str × α)} (h : (fields.map Prod.fst).Nodup) (g g' : α → β) :
    listed (fields.map fun field => (field.1, g field.2)) = sortFields (fields.map fun field => (field.1, g' field.2)) ↔
      Listed (fields.map Prod.fst) ∧ ∀ field ∈ fields, g field.2 = g' field.2 := by
  rw [listed_map, sortFields_map]
  constructor
  · intro heq
    -- the keys alone are listed alike
    have hkeys := congrArg (List.map fun field : Str × β => (field.1, ())) heq
    rw [List.map_map, List.map_map] at hkeys
    have hunits : listed (fields.map fun field => (field.1, ())) = sortFields (fields.map fun field => (field.1, ())) := by
      rw [listed_map fun _ => (), sortFields_map fun _ => ()]
      exact hkeys
    have hfst : (fields.map fun field => (field.1, ())).map Prod.fst = fields.map Prod.fst := List.map_map
    rw [listed_eq_iff (hfst ▸ h), hfst] at hunits
    rw [(listed_eq_iff h).mpr hunits, List.map_inj_left] at heq
    exact ⟨hunits, fun field hin => (Prod.mk.inj (heq field ((sortFields_perm fields).mem_iff.mpr hin))).2⟩
  · rintro ⟨hlisted, hall⟩
    rw [(listed_eq_iff h).mpr hlisted, List.map_inj_left]
    exact fun field hin => by rw [hall field ((sortFields_perm fields).mem_iff.mp hin)]

end

mutual

/-- TypeScript sorts as Python and Rust do exactly if no object is out of the ordinary. -/
theorem sortValue_eq_iff : ∀ value : Json, Valid value →
    (sortValue listed value = sortValue sortFields value ↔ Ordinary value)
  | .null, _ | .bool _, _ | .int _, _ | .string _, _ => ⟨fun _ => trivial, fun _ => rfl⟩
  | .array items, h => by
    rw [Valid] at h
    rw [sortValue, sortValue, Ordinary, Json.array.injEq]
    exact sortItems_eq_iff items h
  | .object fields, h => by
    rw [Valid] at h
    rw [sortValue, sortValue, Ordinary, Json.object.injEq, sortMembers_eq_map, sortMembers_eq_map,
      listed_map_eq_iff h.1, sortMembers_eq_iff fields h.2]

theorem sortItems_eq_iff : ∀ items : List Json, ValidItems items →
    (sortItems listed items = sortItems sortFields items ↔ OrdinaryItems items)
  | [], _ => ⟨fun _ => trivial, fun _ => rfl⟩
  | item :: items, h => by
    rw [ValidItems] at h
    rw [sortItems, sortItems, OrdinaryItems, List.cons.injEq, sortValue_eq_iff item h.1, sortItems_eq_iff items h.2]

theorem sortMembers_eq_iff : ∀ fields : List (Str × Json), ValidFields fields →
    ((∀ field ∈ fields, sortValue listed field.2 = sortValue sortFields field.2) ↔ OrdinaryFields fields)
  | [], _ => ⟨fun _ => trivial, fun _ _ hin => by cases hin⟩
  | (_, value) :: fields, h => by
    rw [ValidFields] at h
    rw [List.forall_mem_cons, OrdinaryFields, sortValue_eq_iff value h.1, sortMembers_eq_iff fields h.2]

end

/-! ## What Go writes -/

mutual

/-- An object with the keys of a tag is escaped. -/
def escaped : Json → Json
  | .array items => .array (escapedItems items)
  | .object fields =>
    let object := .object (sortFields (escapedFields fields))
    if TypeFerry.Go.Ejson.tagShape fields then .object [(str "$escape", object)] else object
  | value => value

def escapedItems : List Json → List Json
  | [] => []
  | item :: items => escaped item :: escapedItems items

def escapedFields : List (Str × Json) → List (Str × Json)
  | [] => []
  | (key, value) :: fields => (key, escaped value) :: escapedFields fields

end

theorem escapedFields_eq_map : ∀ fields : List (Str × Json),
    escapedFields fields = fields.map fun field => (field.1, escaped field.2)
  | [] => rfl
  | (_, _) :: fields => by rw [escapedFields, escapedFields_eq_map fields, List.map_cons]

section
open TypeFerry.Go.Ejson TypeFerry.Ejson.Ports.Go

theorem dumpsFields_eq_map : ∀ fields : List (Str × Json),
    dumpsFields fields = fields.map fun field => stringText field.1 ++ js ":" ++ dumps field.2
  | [] => rfl
  | (_, _) :: fields => by rw [dumpsFields, dumpsFields_eq_map fields, List.map_cons]

theorem spell_commas : ∀ xs : List (List (Lexeme Empty)),
    (commas xs).flatMap spell = separated (xs.map fun x => x.flatMap spell)
  | [] => rfl
  | [_] => rfl
  | x :: y :: xs => by
    rw [commas, List.flatMap_append, List.flatMap_cons, spell_commas (y :: xs)]
    show _ = separated (x.flatMap spell :: (y :: xs).map fun x => x.flatMap spell)
    rw [separated, List.append_assoc]
    · rfl
    · exact List.cons_ne_nil _ _
    · exact List.cons_ne_nil _ _

theorem spell_writeObject {fields : List (Str × List (Lexeme Empty))} {fields' : List (Str × Json)}
    (h : (fields.map fun field => (field.1, field.2.flatMap spell)) =
      fields'.map fun field => (field.1, dumps field.2)) :
    (writeObject true fields).flatMap spell = dumps (.object (sortFields fields')) := by
  have hsort := congrArg sortFields h
  rw [sortFields_map fun x : List (Lexeme Empty) => x.flatMap spell, sortFields_map] at hsort
  have htexts := congrArg (List.map fun field : Str × Text => stringText field.1 ++ js ":" ++ field.2) hsort
  rw [List.map_map, List.map_map] at htexts
  rw [writeObject, dumps, dumpsFields_eq_map, List.flatMap_append, List.flatMap_cons, spell_commas, List.map_map]
  refine congrArg (fun texts => js "\x7b" ++ separated texts ++ js "\x7d") (Eq.trans ?_ htexts)
  exact List.map_congr_left fun field _ => by simp [spell]

theorem toFields_keys : ∀ fields : List (Str × Json), (toFields fields).map Prod.fst = fields.map Prod.fst
  | [] => rfl
  | (_, _) :: fields => by rw [toFields, List.map_cons, toFields_keys fields, List.map_cons]

mutual

theorem spell_writeValue : ∀ value : Json,
    (writeValue platform true false (toValue value)).flatMap spell = dumps (escaped value)
  | .null | .bool true | .bool false | .int _ | .string _ => List.append_nil _
  | .array items => by
    rw [toValue, writeValue, escaped, dumps, List.flatMap_append, List.flatMap_cons, spell_commas,
      spell_writeItems items]
    rfl
  | .object fields => by
    have hobject := spell_writeObject (spell_writeFields fields)
    have htag : tagShape (toFields fields) = tagShape fields :=
      TypeFerry.Go.EjsonRoundTrip.tagShape_perm (by rw [toFields_keys])
    rw [toValue, writeValue, escaped, htag]
    cases tagShape fields with
    | false => exact hobject
    | true =>
      show (.openBrace :: .string (str "$escape") :: .colon :: (writeObject true _ ++ [.closeBrace])).flatMap spell = _
      rw [List.flatMap_cons, List.flatMap_cons, List.flatMap_cons, List.flatMap_append, hobject, if_pos rfl]
      show _ = js "\x7b" ++ (stringText (str "$escape") ++ js ":" ++ dumps (.object _)) ++ js "\x7d"
      simp [spell]

theorem spell_writeItems : ∀ items : List Json,
    (writeItems platform true (toItems items)).map (fun x => x.flatMap spell) = dumpsItems (escapedItems items)
  | [] => rfl
  | item :: items => by
    rw [toItems, writeItems, List.map_cons, spell_writeValue item, spell_writeItems items, escapedItems, dumpsItems]

theorem spell_writeFields : ∀ fields : List (Str × Json),
    ((writeFields platform true (toFields fields)).map fun field => (field.1, field.2.flatMap spell)) =
      (escapedFields fields).map fun field => (field.1, dumps field.2)
  | [] => rfl
  | (key, value) :: fields => by
    rw [toFields, writeFields, List.map_cons, spell_writeValue value, spell_writeFields fields, escapedFields,
      List.map_cons]

end

theorem go_text (value : Json) : Go.stringify value = dumps (escaped value) := spell_writeValue value

end

mutual

def nodes : Json → ℕ
  | .array items => 1 + nodesItems items
  | .object fields => 1 + nodesFields fields
  | _ => 1

def nodesItems : List Json → ℕ
  | [] => 0
  | item :: items => nodes item + nodesItems items

def nodesFields : List (Str × Json) → ℕ
  | [] => 0
  | (_, value) :: fields => nodes value + nodesFields fields

end

theorem nodesFields_eq_sum : ∀ fields : List (Str × Json),
    nodesFields fields = (fields.map fun field => nodes field.2).sum
  | [] => rfl
  | (_, _) :: fields => by rw [nodesFields, nodesFields_eq_sum fields, List.map_cons, List.sum_cons]

theorem nodes_sortFields (fields : List (Str × Json)) : nodesFields (sortFields fields) = nodesFields fields := by
  rw [nodesFields_eq_sum, nodesFields_eq_sum]
  exact ((sortFields_perm fields).map _).sum_eq

mutual

theorem nodes_sortValue : ∀ value : Json, nodes (sortValue sortFields value) = nodes value
  | .null | .bool _ | .int _ | .string _ => rfl
  | .array items => by rw [sortValue, nodes, nodes_sortItems items, nodes]
  | .object fields => by rw [sortValue, nodes, nodes_sortFields, nodes_sortMembers fields, nodes]

theorem nodes_sortItems : ∀ items : List Json, nodesItems (sortItems sortFields items) = nodesItems items
  | [] => rfl
  | item :: items => by rw [sortItems, nodesItems, nodes_sortValue item, nodes_sortItems items, nodesItems]

theorem nodes_sortMembers : ∀ fields : List (Str × Json), nodesFields (sortMembers sortFields fields) = nodesFields fields
  | [] => rfl
  | (key, value) :: fields => by
    rw [sortMembers, nodesFields, nodes_sortValue value, nodes_sortMembers fields, nodesFields]

end

mutual

theorem nodes_le_escaped : ∀ value : Json, nodes value ≤ nodes (escaped value)
  | .null | .bool _ | .int _ | .string _ => le_refl _
  | .array items => by
    have hitems := nodes_le_escapedItems items
    rw [escaped, nodes, nodes]
    omega
  | .object fields => by
    have hfields := nodes_le_escapedFields fields
    rw [escaped]
    cases TypeFerry.Go.Ejson.tagShape fields with
    | false =>
      show nodes _ ≤ nodes (.object _)
      rw [nodes, nodes, nodes_sortFields]
      omega
    | true =>
      show nodes _ ≤ nodes (.object [(_, .object _)])
      rw [nodes, nodes, nodesFields, nodes, nodes_sortFields]
      omega

theorem nodes_le_escapedItems : ∀ items : List Json, nodesItems items ≤ nodesItems (escapedItems items)
  | [] => le_refl _
  | item :: items => Nat.add_le_add (nodes_le_escaped item) (nodes_le_escapedItems items)

theorem nodes_le_escapedFields : ∀ fields : List (Str × Json), nodesFields fields ≤ nodesFields (escapedFields fields)
  | [] => le_refl _
  | (_, value) :: fields => Nat.add_le_add (nodes_le_escaped value) (nodes_le_escapedFields fields)

end

mutual

/-- Go writes what Python and Rust do exactly if nothing is escaped, which only adds objects. -/
theorem escaped_eq_iff : ∀ value : Json, escaped value = sortValue sortFields value ↔ Untagged value
  | .null | .bool _ | .int _ | .string _ => ⟨fun _ => trivial, fun _ => rfl⟩
  | .array items => by
    rw [escaped, sortValue, Untagged, Json.array.injEq]
    exact escapedItems_eq_iff items
  | .object fields => by
    rw [Untagged]
    cases htag : TypeFerry.Go.Ejson.tagShape fields with
    | true =>
      refine iff_of_false (fun heq => ?_) (by simp)
      have hnodes := congrArg nodes heq
      have hfields := nodes_le_escapedFields fields
      rw [nodes_sortValue, escaped, htag] at hnodes
      simp only [if_true, nodes, nodesFields, nodes_sortFields] at hnodes
      omega
    | false =>
      rw [escaped, htag, sortValue, escapedFields_eq_map, sortMembers_eq_map, sortFields_map, sortFields_map,
        ← escapedFields_eq_iff fields]
      simp only [Bool.false_eq_true, if_false, Json.object.injEq, List.map_inj_left, Prod.mk.injEq, true_and]
      simp only [(sortFields_perm fields).mem_iff]

theorem escapedItems_eq_iff : ∀ items : List Json,
    escapedItems items = sortItems sortFields items ↔ UntaggedItems items
  | [] => ⟨fun _ => trivial, fun _ => rfl⟩
  | item :: items => by
    rw [escapedItems, sortItems, UntaggedItems, List.cons.injEq, escaped_eq_iff item, escapedItems_eq_iff items]

theorem escapedFields_eq_iff : ∀ fields : List (Str × Json),
    (∀ field ∈ fields, escaped field.2 = sortValue sortFields field.2) ↔ UntaggedFields fields
  | [] => ⟨fun _ => trivial, fun _ _ hin => by cases hin⟩
  | (_, value) :: fields => by
    rw [List.forall_mem_cons, UntaggedFields, escaped_eq_iff value, escapedFields_eq_iff fields]

end

/-! ## A text determines its value -/

theorem validFields_iff : ∀ {fields : List (Str × Json)}, ValidFields fields ↔ ∀ field ∈ fields, Valid field.2
  | [] => ⟨fun _ _ => List.not_mem_nil.elim, fun _ => trivial⟩
  | (_, value) :: fields => by rw [ValidFields, List.forall_mem_cons, validFields_iff]

section
variable {sort : List (Str × Json) → List (Str × Json)}

theorem valid_subperm {fields fields' : List (Str × Json)} (hsub : fields.Subperm fields')
    (h : Valid (.object fields')) : Valid (.object fields) := by
  rw [Valid, validFields_iff] at h ⊢
  obtain ⟨fields'', hperm, hsublist⟩ := hsub
  exact ⟨(hperm.map Prod.fst).nodup_iff.mp (h.1.sublist (hsublist.map _)),
    fun field hin => h.2 field (hsublist.subset (hperm.mem_iff.mpr hin))⟩

mutual

theorem valid_sortValue (hsort : ∀ fields, (sort fields).Subperm fields) : ∀ value : Json, Valid value →
    Valid (sortValue sort value)
  | .null, h | .bool _, h | .int _, h | .string _, h => h
  | .array items, h => by
    rw [Valid] at h
    rw [sortValue, Valid]
    exact valid_sortItems hsort items h
  | .object fields, h => by
    rw [Valid] at h
    rw [sortValue]
    refine valid_subperm (hsort _) ?_
    rw [Valid, keys_sortMembers]
    exact ⟨h.1, valid_sortMembers hsort fields h.2⟩

theorem valid_sortItems (hsort : ∀ fields, (sort fields).Subperm fields) : ∀ items : List Json, ValidItems items →
    ValidItems (sortItems sort items)
  | [], _ => trivial
  | item :: items, h => by
    rw [ValidItems] at h
    exact ⟨valid_sortValue hsort item h.1, valid_sortItems hsort items h.2⟩

theorem valid_sortMembers (hsort : ∀ fields, (sort fields).Subperm fields) : ∀ fields : List (Str × Json),
    ValidFields fields → ValidFields (sortMembers sort fields)
  | [], _ => trivial
  | (_, value) :: fields, h => by
    rw [ValidFields] at h
    exact ⟨valid_sortValue hsort value h.1, valid_sortMembers hsort fields h.2⟩

end

end

mutual

theorem valid_escaped : ∀ value : Json, Valid value → Valid (escaped value)
  | .null, h | .bool _, h | .int _, h | .string _, h => h
  | .array items, h => by
    rw [Valid] at h
    rw [escaped, Valid]
    exact valid_escapedItems items h
  | .object fields, h => by
    rw [Valid] at h
    have hobject : Valid (.object (sortFields (escapedFields fields))) := by
      refine valid_subperm (sortFields_perm _).subperm ?_
      rw [Valid, escapedFields_eq_map, List.map_map, ← escapedFields_eq_map]
      exact ⟨h.1, valid_escapedFields fields h.2⟩
    rw [escaped]
    cases TypeFerry.Go.Ejson.tagShape fields with
    | false => exact hobject
    | true => exact ⟨List.nodup_singleton _, hobject, trivial⟩

theorem valid_escapedItems : ∀ items : List Json, ValidItems items → ValidItems (escapedItems items)
  | [], _ => trivial
  | item :: items, h => by
    rw [ValidItems] at h
    exact ⟨valid_escaped item h.1, valid_escapedItems items h.2⟩

theorem valid_escapedFields : ∀ fields : List (Str × Json), ValidFields fields → ValidFields (escapedFields fields)
  | [], _ => trivial
  | (_, value) :: fields, h => by
    rw [ValidFields] at h
    exact ⟨valid_escaped value h.1, valid_escapedFields fields h.2⟩

end

mutual

theorem wf_tree : ∀ value : Json, Valid value → WF (tree value)
  | .null, _ | .bool _, _ | .int _, _ | .string _, _ => trivial
  | .array items, h => by
    rw [Valid] at h
    exact wf_treeItems items h
  | .object fields, h => by
    rw [Valid] at h
    refine ⟨?_, wf_treeFields fields h.2⟩
    have hkeys := h.1.map (f := utf16) fun _ _ => utf16_injective
    rw [List.map_map] at hkeys
    rw [treeFields_eq_map, List.map_map]
    exact hkeys

theorem wf_treeItems : ∀ items : List Json, ValidItems items → WFElems (treeItems items)
  | [], _ => trivial
  | item :: items, h => by
    rw [ValidItems] at h
    exact ⟨wf_tree item h.1, wf_treeItems items h.2⟩

theorem wf_treeFields : ∀ fields : List (Str × Json), ValidFields fields → WFMembers (treeFields fields)
  | [], _ => trivial
  | (_, value) :: fields, h => by
    rw [ValidFields] at h
    exact ⟨wf_tree value h.1, wf_treeFields fields h.2⟩

end

mutual

/-- No integer is a negative zero. -/
theorem dropNegZero_tree : ∀ value : Json, dropNegZero (tree value) = tree value
  | .null | .bool _ | .string _ => rfl
  | .int n => by rw [tree, dropNegZero, RoundTrip.ofInt_dropNegZero]
  | .array items => by rw [tree, dropNegZero, dropNegZero_treeItems items]
  | .object fields => by rw [tree, dropNegZero, dropNegZero_treeFields fields]

theorem dropNegZero_treeItems : ∀ items : List Json, dropNegZeroElems (treeItems items) = treeItems items
  | [] => rfl
  | item :: items => by rw [treeItems, dropNegZeroElems, dropNegZero_tree item, dropNegZero_treeItems items]

theorem dropNegZero_treeFields : ∀ fields : List (Str × Json), dropNegZeroMembers (treeFields fields) = treeFields fields
  | [] => rfl
  | (_, value) :: fields => by
    rw [treeFields, dropNegZeroMembers, dropNegZero_tree value, dropNegZero_treeFields fields]

end

theorem parse_tree {value : Json} (h : Valid value) : parse (stringify (tree value)) = some (tree value) := by
  rw [parse_stringify (wf_tree value h), dropNegZero_tree]

mutual

theorem tree_injective : ∀ {value value' : Json}, tree value = tree value' → value = value'
  | .null, value', h => by
    cases value' <;> simp only [tree, reduceCtorEq] at h
    rfl
  | .bool b, value', h => by
    cases value' <;> simp only [tree, reduceCtorEq, Lib.JsonText.Json.bool.injEq] at h
    rw [h]
  | .int n, value', h => by
    cases value' <;> simp only [tree, reduceCtorEq, Json.num.injEq] at h
    rw [WireEquality.ofInt_inj (congrArg Decimal.dropNegZero h)]
  | .string s, value', h => by
    cases value' <;> simp only [tree, reduceCtorEq, Json.str.injEq] at h
    rw [utf16_injective h]
  | .array items, value', h => by
    cases value' <;> simp only [tree, reduceCtorEq, Json.arr.injEq] at h
    rw [treeItems_injective h]
  | .object fields, value', h => by
    cases value' <;> simp only [tree, reduceCtorEq, Json.obj.injEq] at h
    rw [treeFields_injective h]

theorem treeItems_injective : ∀ {items items' : List Json}, treeItems items = treeItems items' → items = items'
  | [], [], _ => rfl
  | item :: items, item' :: items', h => by
    rw [treeItems, treeItems, List.cons.injEq] at h
    rw [tree_injective h.1, treeItems_injective h.2]

theorem treeFields_injective : ∀ {fields fields' : List (Str × Json)}, treeFields fields = treeFields fields' →
    fields = fields'
  | [], [], _ => rfl
  | (key, value) :: fields, (key', value') :: fields', h => by
    rw [treeFields, treeFields, List.cons.injEq, Prod.mk.injEq] at h
    rw [utf16_injective h.1.1, tree_injective h.1.2, treeFields_injective h.2]

end

theorem text_injective {value value' : Json} (h : Valid value) (h' : Valid value')
    (heq : stringify (tree value) = stringify (tree value')) : value = value' := by
  have hparse := parse_tree h
  rw [heq, parse_tree h', Option.some.injEq] at hparse
  exact (tree_injective hparse).symm

/-! ## Sorted values -/

theorem equalFields_iff : ∀ {fields fields' : List (Str × Json)}, EqualFields fields fields' ↔
    ∀ field ∈ fields, ∃ field' ∈ fields', field'.1 = field.1 ∧ Equal field.2 field'.2
  | [], _ => ⟨fun _ _ => List.not_mem_nil.elim, fun _ => trivial⟩
  | (_, _) :: fields, _ => by rw [EqualFields, List.forall_mem_cons, equalFields_iff]

theorem sortedFields_iff : ∀ {fields : List (Str × Json)}, SortedFields fields ↔ ∀ field ∈ fields, Sorted field.2
  | [] => ⟨fun _ _ => List.not_mem_nil.elim, fun _ => trivial⟩
  | (_, _) :: fields => by rw [SortedFields, List.forall_mem_cons, sortedFields_iff]

mutual

theorem equal_sortValue : ∀ value : Json, Equal (sortValue sortFields value) value
  | .null | .bool _ | .int _ | .string _ => rfl
  | .array items => by
    rw [sortValue, Equal]
    exact equal_sortItems items
  | .object fields => by
    rw [sortValue, Equal, equalFields_iff, (sortFields_perm _).length_eq, sortMembers_eq_map, List.length_map]
    refine ⟨rfl, fun field hin => ?_⟩
    obtain ⟨field', hin', rfl⟩ := List.mem_map.mp ((sortFields_perm _).mem_iff.mp hin)
    exact ⟨field', hin', rfl, equal_sortMembers fields field' hin'⟩

theorem equal_sortItems : ∀ items : List Json, EqualItems (sortItems sortFields items) items
  | [] => trivial
  | item :: items => ⟨equal_sortValue item, equal_sortItems items⟩

theorem equal_sortMembers : ∀ fields : List (Str × Json), ∀ field ∈ fields,
    Equal (sortValue sortFields field.2) field.2
  | [], _, hin => by cases hin
  | (_, value) :: fields, field, hin => by
    rcases List.mem_cons.mp hin with rfl | hin
    · exact equal_sortValue value
    · exact equal_sortMembers fields field hin

end

mutual

theorem sorted_sortValue : ∀ value : Json, Valid value → Sorted (sortValue sortFields value)
  | .null, _ | .bool _, _ | .int _, _ | .string _, _ => trivial
  | .array items, h => by
    rw [Valid] at h
    rw [sortValue, Sorted]
    exact sorted_sortItems items h
  | .object fields, h => by
    rw [Valid] at h
    have hfields := sorted_sortMembers fields h.2
    rw [sortedFields_iff] at hfields
    rw [sortValue, Sorted, sortedFields_iff]
    exact ⟨sortFields_sorted (by rw [keys_sortMembers]; exact h.1),
      fun field hin => hfields field ((sortFields_perm _).mem_iff.mp hin)⟩

theorem sorted_sortItems : ∀ items : List Json, ValidItems items → SortedItems (sortItems sortFields items)
  | [], _ => trivial
  | item :: items, h => by
    rw [ValidItems] at h
    exact ⟨sorted_sortValue item h.1, sorted_sortItems items h.2⟩

theorem sorted_sortMembers : ∀ fields : List (Str × Json), ValidFields fields →
    SortedFields (sortMembers sortFields fields)
  | [], _ => trivial
  | (_, value) :: fields, h => by
    rw [ValidFields] at h
    exact ⟨sorted_sortValue value h.1, sorted_sortMembers fields h.2⟩

end

/-! ## The texts of the ports -/

theorem sortFields_subperm (fields : List (Str × Json)) : (sortFields fields).Subperm fields :=
  (sortFields_perm fields).subperm

theorem listed_subperm (fields : List (Str × Json)) : (listed fields).Subperm fields :=
  (listed_perm fields).subperm.trans List.filter_sublist.subperm

theorem python_text (value : Json) : Python.stableStringify value = Rust.stringify value := by
  rw [Python.stableStringify, Rust.stringify, show Python.sorted = sortFields from funext sorted_eq]

theorem rust_text {value : Json} (h : Valid value) :
    Rust.stringify value = stringify (tree (sortValue sortFields value)) :=
  dumps_eq _ (valid_sortValue sortFields_subperm value h)

/-- All ports write one text for an ordinary value that Go need not escape. -/
theorem oneText_of_ordinary {value : Json} (h : Valid value) (hordinary : Ordinary value) (huntagged : Untagged value) :
    OneText value := by
  refine ⟨Rust.stringify value, ?_, python_text value, rfl, ?_, sortValue sortFields value, ?_,
    equal_sortValue value, sorted_sortValue value h⟩
  · rw [typeScript_text h, (sortValue_eq_iff value h).mpr hordinary, rust_text h]
  · rw [go_text, (escaped_eq_iff value).mpr huntagged, Rust.stringify]
  · rw [rust_text h, parse_tree (valid_sortValue sortFields_subperm value h)]

/-- No other value has one text. -/
theorem ordinary_of_oneText {value : Json} (h : Valid value) : OneText value → Ordinary value ∧ Untagged value := by
  rintro ⟨text, htypeScript, hpython, rfl, hgo, -⟩
  have hsorted := valid_sortValue sortFields_subperm value h
  constructor
  · rw [typeScript_text h, rust_text h, Option.some.injEq] at htypeScript
    exact (sortValue_eq_iff value h).mp (text_injective (valid_sortValue listed_subperm value h) hsorted htypeScript)
  · have hescaped := valid_escaped value h
    rw [go_text, dumps_eq _ hescaped, rust_text h] at hgo
    exact (escaped_eq_iff value).mp (text_injective hescaped hsorted hgo)

/-- **All ports write one text** exactly for the ordinary values that Go need not escape. -/
theorem oneText_iff {value : Json} (h : Valid value) : OneText value ↔ Ordinary value ∧ Untagged value :=
  ⟨ordinary_of_oneText h, fun hall => oneText_of_ordinary h hall.1 hall.2⟩

/-- Numbers among the keys, in their order, and a tag with one more key. -/
def invoice : Json :=
  .object [(str "total", .int (-9007199254740991)), (str "2", .array [.null, .object [(str "é", .string (str "é"))]]),
    (str "1", .object [(str "$date", .int 0), (str "zone", .bool true)])]

theorem oneText_invoice : Valid invoice ∧ OneText invoice := by
  have hvalid : Valid invoice := by
    simp only [invoice, Valid, ValidItems, ValidFields]
    decide
  have hordinary : Ordinary invoice := by
    simp only [invoice, Ordinary, OrdinaryItems, OrdinaryFields, Listed]
    decide +kernel
  have huntagged : Untagged invoice := by
    simp only [invoice, Untagged, UntaggedItems, UntaggedFields]
    decide
  exact ⟨hvalid, (oneText_iff hvalid).mpr ⟨hordinary, huntagged⟩⟩

/-- One object looks like a date, the others have keys that an object of TypeScript drops, lists by their
numbers, or lists by their code units. -/
def exceptions : List Json :=
  [.object [(str "$date", .int 1)], .object [(str "__proto__", .int 1)], .object [(str "10", .int 1), (str "2", .int 2)],
    .object [(str "｡", .int 1), (str "𐀀", .int 2)]]

theorem exceptions_differ : exceptions.Forall fun value => Valid value ∧ ¬OneText value := by
  have hgo : ∀ {value : Json}, Go.stringify value ≠ Rust.stringify value → ¬OneText value :=
    fun hne ⟨_, _, _, hrust, hgo, _⟩ => hne (hgo.trans hrust.symm)
  have htypeScript : ∀ {value : Json}, TypeScript.stableStringify value ≠ some (Rust.stringify value) → ¬OneText value :=
    fun hne ⟨_, htypeScript, _, hrust, _⟩ => hne (htypeScript.trans (congrArg some hrust.symm))
  simp only [exceptions, List.Forall, Valid, ValidFields]
  refine ⟨⟨by decide, hgo ?_⟩, ⟨by decide, htypeScript ?_⟩, ⟨by decide, htypeScript ?_⟩, by decide, htypeScript ?_⟩
  all_goals decide +kernel

end TypeFerry.Ejson.OneFormat
