import TypeFerry.Minimongo.Modifier

/-! # The names that a modifier writes

Insertions check every field name. An update starts from a document with valid
names and writes along the keys of a path; here these names are followed through
every operator, at any depth. Names come from the parts of paths and from
arguments, and some of both go unchecked. -/
namespace TypeFerry.Minimongo.Names
open TypeFerry.Lib.Numeral TypeFerry.Lib.JsonText TypeFerry.Ejson.Clone TypeFerry.Ejson.Encode
open TypeFerry.Ejson.Canonical TypeFerry.Minimongo.Values TypeFerry.Minimongo.Matcher
open TypeFerry.Minimongo.Sorter TypeFerry.Minimongo.Modifier

/-! ## Names -/

/-- A name that `assertValidFieldNames` passes. -/
def NameOk (key : Text) : Prop := invalidFieldNameReason key = none

/-- `assertValidFieldNames(value)` returns. -/
def Valid (value : Value) : Prop := assertValidFieldNames value = .ok ()

theorem seq_eq_ok {x y : Except Text Unit} : (do x; y) = .ok () ↔ x = .ok () ∧ y = .ok () := by
  cases x with
  | error e => exact ⟨fun h => (nomatch h), fun h => (nomatch h.1)⟩
  | ok u => exact ⟨fun h => ⟨rfl, h⟩, fun h => h.2⟩

theorem assertElems_iff {xs : List Value} : assertElems xs = .ok () ↔ ∀ x ∈ xs, Valid x := by
  induction xs with
  | nil => simp [assertElems]
  | cons x xs ih =>
    rw [assertElems, seq_eq_ok, ih, List.forall_mem_cons]
    rfl

theorem assertMembers_iff {ms : List (Text × Value)} :
    assertMembers ms = .ok () ↔ ∀ m ∈ ms, NameOk m.1 ∧ Valid m.2 := by
  induction ms with
  | nil => simp [assertMembers]
  | cons m ms ih =>
    rw [assertMembers, List.forall_mem_cons, NameOk]
    split
    · next reason hr => simp [hr]
    · next hr =>
      rw [seq_eq_ok, ih, and_iff_right hr]
      rfl

theorem valid_arr {xs : List Value} : Valid (.arr xs) ↔ ∀ x ∈ xs, Valid x := by
  rw [Valid, assertValidFieldNames, assertElems_iff]

theorem valid_obj {ms : List (Text × Value)} : Valid (.obj ms) ↔ ∀ m ∈ ms, NameOk m.1 ∧ Valid m.2 := by
  rw [Valid, assertValidFieldNames, assertMembers_iff]

theorem hasDoubleDot_eq_false : ∀ {key : Text}, (46 : UInt16) ∉ key → hasDoubleDot key = false
  | [], _ => rfl
  | u :: rest, h => by
    rw [List.mem_cons, not_or] at h
    unfold hasDoubleDot
    split
    · next heq => exact absurd (List.cons.inj heq).1.symm h.1
    · next heq =>
      obtain ⟨-, rfl⟩ := List.cons.inj heq
      exact hasDoubleDot_eq_false h.2
    · rfl

theorem nameOk_of_units {key : Text} (hdollar : startsWith (js "$") key = false)
    (hdot : (46 : UInt16) ∉ key) (hnull : (0 : UInt16) ∉ key) : NameOk key := by
  have hends : ¬(key.head? = some 46 ∨ key.getLast? = some 46) := by
    rintro (h | h)
    · exact hdot (List.mem_of_head? h)
    · exact hdot (List.mem_of_getLast? h)
  rw [NameOk, invalidFieldNameReason, hdollar, if_neg Bool.false_ne_true, if_neg hends,
    hasDoubleDot_eq_false hdot, if_neg Bool.false_ne_true, if_neg hnull]

/-- A key of digits is a valid name. -/
theorem nameOk_of_numeric {key : Text} (h : isNumericKey key = true) : NameOk key := by
  obtain ⟨-, hdigits⟩ := Bool.and_eq_true_iff.mp h
  have hunit : ∀ u : UInt16, (digit? u).isSome = false → u ∉ key := by
    intro u hu hmem
    rw [List.all_eq_true.mp hdigits u hmem] at hu
    cases hu
  refine nameOk_of_units ?_ (hunit 46 rfl) (hunit 0 rfl)
  cases key with
  | nil => rfl
  | cons u rest =>
    have hu : u ≠ 36 := fun hu => hunit 36 rfl (hu ▸ List.mem_cons_self)
    simp [startsWith, js, List.isPrefixOf, Ne.symm hu]

theorem nameOk_of_arrayKey {key : Text} {i : ℕ} (h : arrayKey? key = some i) : NameOk key := by
  unfold arrayKey? at h
  split at h
  · next hk => exact nameOk_of_numeric hk.1
  · cases h

/-- What is read from a valid value stands under a valid name. -/
theorem nameOk_of_getKey {v : Value} {key : Text} (hv : Valid v) (h : getKey v key ≠ .undefined) :
    NameOk key := by
  cases v with
  | obj ms =>
    cases hown : getOwn key ms with
    | none => exact absurd (by rw [getKey, hown]; rfl) h
    | some x => exact (valid_obj.mp hv _ (mem_of_getOwn hown)).1
  | arr xs =>
    rw [getKey] at h
    split at h
    · next hk => rw [hk]; rfl
    · split at h
      · next i hi => exact nameOk_of_arrayKey hi
      · exact absurd rfl h
  | _ => exact absurd rfl h

/-! ## Values that keep valid -/

theorem valid_getKey {v : Value} (hv : Valid v) (key : Text) : Valid (getKey v key) := by
  cases v with
  | obj ms =>
    cases hown : getOwn key ms with
    | none => rw [getKey, hown]; rfl
    | some x =>
      rw [getKey, hown]
      exact (valid_obj.mp hv _ (mem_of_getOwn hown)).2
  | arr xs =>
    rw [getKey]
    split
    · rfl
    · split
      · next i hi =>
        rw [List.getD_eq_getElem?_getD]
        cases hx : xs[i]? with
        | none => rfl
        | some x => exact valid_arr.mp hv x (List.mem_of_getElem? hx)
      · rfl
  | _ => rfl

theorem valid_valueAt : ∀ (keys : List Text) {v : Value}, Valid v → Valid (valueAt keys v)
  | [], _, h => h
  | key :: keys, _, h => valid_valueAt keys (valid_getKey h key)

theorem valid_enumerate {ms : List (Text × Value)} (h : Valid (.obj ms)) :
    Valid (.obj (enumerate ms)) := by
  rw [valid_obj] at h ⊢
  exact fun m hm => h m ((enumerate_perm ms).mem_iff.mp hm)

theorem valid_assign {ms : List (Text × Value)} {key : Text} {x : Value} (h : Valid (.obj ms))
    (hkey : NameOk key) (hx : Valid x) : Valid (.obj (assign key x ms)) := by
  rw [valid_obj] at h ⊢
  intro m hm
  rcases mem_assign hm with hm | ⟨rfl, -⟩
  · exact h m hm
  · exact ⟨hkey, hx⟩

theorem valid_setElem {xs : List Value} {i : ℕ} {x : Value} (h : Valid (.arr xs)) (hx : Valid x) :
    Valid (.arr (setElem i x xs)) := by
  rw [valid_arr] at h ⊢
  unfold setElem
  split
  · intro y hy
    rcases List.mem_or_eq_of_mem_set hy with hy | rfl
    · exact h y hy
    · exact hx
  · intro y hy
    simp only [List.mem_append, List.mem_replicate, List.mem_singleton] at hy
    rcases hy with (hy | ⟨-, rfl⟩) | rfl
    · exact h y hy
    · rfl
    · exact hx

theorem valid_setLength {p : Platform} {xs ys : List Value} {x : Value} (h : Valid (.arr xs))
    (hset : setLength p x xs = .ok ys) : Valid (.arr ys) := by
  rw [valid_arr] at h ⊢
  unfold setLength at hset
  split at hset
  · split at hset
    · cases hset
      intro y hy
      rcases List.mem_append.mp hy with hy | hy
      · exact h y (List.mem_of_mem_take hy)
      · rw [List.eq_of_mem_replicate hy]
        rfl
    · cases hset
  · cases hset

theorem valid_setKey {p : Platform} {key : Text} {x v v' : Value} (hv : Valid v) (hkey : NameOk key)
    (hx : Valid x) (h : setKey p key x v = .ok v') : Valid v' := by
  cases v with
  | obj ms =>
    cases h
    exact valid_enumerate (valid_assign hv hkey hx)
  | arr xs =>
    rw [setKey] at h
    split at h
    · obtain ⟨ys, hys, h⟩ := bind_eq_ok h
      cases h
      exact valid_setLength hv hys
    · split at h
      · cases h
        exact valid_setElem hv hx
      · cases h
        exact hv
  | _ =>
    cases h
    exact hv

theorem valid_deleteKey {key : Text} {v : Value} (hv : Valid v) : Valid (deleteKey key v) := by
  cases v with
  | obj ms =>
    rw [deleteKey, valid_obj]
    exact fun m hm => valid_obj.mp hv m (List.mem_filter.mp hm).1
  | _ => exact hv

theorem valid_updateAt {p : Platform} {f : Value → Except Text Value}
    (hf : ∀ {v v' : Value}, Valid v → f v = .ok v' → Valid v') :
    ∀ {keys : List Text} {v v' : Value}, (∀ key ∈ keys, NameOk key) → Valid v →
      updateAt p f keys v = .ok v' → Valid v'
  | [], _, _, _, hv, h => hf hv h
  | key :: keys, v, v', hkeys, hv, h => by
    obtain ⟨x, hx, h⟩ := bind_eq_ok h
    have hvx : Valid x := valid_updateAt hf (fun k hk => hkeys k (List.mem_cons_of_mem _ hk))
      (valid_getKey hv key) hx
    exact valid_setKey hv (hkeys key List.mem_cons_self) hvx h

theorem valid_writeField {p : Platform} {target : Target} {x document document' : Value}
    (hkeys : ∀ keys, target.parent = some keys → ∀ key ∈ keys, NameOk key)
    (hfield : target.parent.isSome → NameOk target.field) (hd : Valid document) (hx : Valid x)
    (h : writeField p target x document = .ok document') :
    Valid document' := by
  unfold writeField at h
  split at h
  · next keys hparent =>
    have hname := hfield (by rw [hparent]; rfl)
    exact valid_updateAt (fun hv hset => valid_setKey hv hname hx hset) (hkeys keys hparent) hd h
  · cases h
    exact hd

theorem valid_removeField {p : Platform} {target : Target} {document document' : Value}
    (hkeys : ∀ keys, target.parent = some keys → ∀ key ∈ keys, NameOk key)
    (hd : Valid document) (h : removeField p target document = .ok document') : Valid document' := by
  unfold removeField at h
  split at h
  · next keys hparent =>
    refine valid_updateAt (fun {v v'} hv hset => ?_) (hkeys keys hparent) hd h
    split at hset
    · next xs =>
      split at hset
      · cases hset
        split
        · exact valid_setElem hv rfl
        · exact hv
      · cases hset
        exact hv
    · cases hset
      exact valid_deleteKey hv
  · cases h
    exact hd

theorem valid_readField {target : Target} {document : Value} (hd : Valid document) :
    Valid (readField target document) := by
  unfold readField
  split
  · next keys _ => exact valid_getKey (valid_valueAt keys hd) _
  · rfl

theorem nameOk_of_readField {target : Target} {document : Value} (hd : Valid document)
    (h : readField target document ≠ .undefined) : NameOk target.field := by
  unfold readField at h
  split at h
  · next keys _ => exact nameOk_of_getKey (valid_valueAt keys hd) h
  · exact absurd rfl h

/-! ## Walking along a path -/

/-- A part of a path that makes a valid name: a position, or a name of its own. -/
def PartOk (part : Text) : Prop := part = js "$" ∨ NameOk part

theorem isNumericKey_indexText (i : ℕ) : isNumericKey (indexText i) = true := by
  have hdigits : ((digitsOf i).map unit).all (fun u => (digit? u).isSome) = true := by
    rw [List.all_map, List.all_eq_true]
    intro d hd
    rw [Function.comp_apply, digit?_unit (digitsOf_lt hd)]
    rfl
  rw [isNumericKey, indexText, hdigits, Bool.and_true]
  cases h : digitsOf i with
  | nil => exact absurd h (digitsOf_ne_nil i)
  | cons d ds => rfl

theorem nameOk_keyOf {part key : Text} {positional rest : List ℕ} (hpart : PartOk part)
    (h : keyOf part positional = .ok (key, rest)) : NameOk key := by
  unfold keyOf at h
  split at h
  · split at h
    · cases h
    · cases h
      exact nameOk_of_numeric (isNumericKey_indexText _)
  · next hne =>
    cases h
    exact hpart.resolve_left hne

theorem valid_walk {p : Platform} {noCreate forbidArray : Bool} : ∀ {parts : List Text}
    {positional positional' : List ℕ} {current current' : Value} {keys : Option (List Text)},
    (noCreate = true ∨ ∀ part ∈ parts, PartOk part) → Valid current →
    walk p noCreate forbidArray parts positional current = .ok (current', keys, positional') →
      Valid current' ∧ ∀ ks, keys = some ks → ∀ key ∈ ks, NameOk key
  | [], _, _, _, _, _, _, hv, h => by
    cases h
    refine ⟨hv, fun ks hks key hkey => ?_⟩
    cases hks
    cases hkey
  | part :: rest, positional, positional', current, current', keys, hparts, hv, h => by
    have hrest : noCreate = true ∨ ∀ part ∈ rest, PartOk part :=
      hparts.imp_right fun hp q hq => hp q (List.mem_cons_of_mem _ hq)
    obtain ⟨⟨key, positional₁⟩, hkey, h⟩ := bind_eq_ok h
    dsimp only at h
    split at h
    · cases h
    · -- Below a key that is there, or that is made.
      have hdescend : ∀ {child : Value}, NameOk key → Valid child →
          (do
            let r ← walk p noCreate forbidArray rest positional₁ child
            let v ← setKey p key r.1 current
            .ok (v, r.2.1.map (key :: ·), r.2.2)) = Except.ok (current', keys, positional') →
          Valid current' ∧ ∀ ks, keys = some ks → ∀ key ∈ ks, NameOk key := by
        intro child hname hchild hwalk
        obtain ⟨⟨child', keys', positional₂⟩, hchild', hwalk⟩ := bind_eq_ok hwalk
        obtain ⟨v, hset, hwalk⟩ := bind_eq_ok hwalk
        obtain ⟨hvalid, hnames⟩ := valid_walk hrest hchild hchild'
        cases hwalk
        refine ⟨valid_setKey hv hname hvalid hset, fun ks hks k hk => ?_⟩
        obtain ⟨ks', rfl, rfl⟩ := Option.map_eq_some_iff.mp hks
        rcases List.mem_cons.mp hk with rfl | hk
        · exact hname
        · exact hnames ks' rfl k hk
      have hthere : getKey current key ≠ .undefined → NameOk key := nameOk_of_getKey hv
      split at h
      · next ms hms => exact hdescend (hthere (by rw [hms]; nofun)) (hms ▸ valid_getKey hv key) h
      · next xs hxs => exact hdescend (hthere (by rw [hxs]; nofun)) (hxs ▸ valid_getKey hv key) h
      · split at h
        · cases h
          exact ⟨hv, nofun⟩
        · next hcreate =>
          have hname := nameOk_keyOf (hparts.resolve_left hcreate part List.mem_cons_self) hkey
          refine hdescend hname ?_ h
          split <;> rfl
      · split at h
        · cases h
          exact ⟨hv, nofun⟩
        · next hcreate =>
          have hname := nameOk_keyOf (hparts.resolve_left hcreate part List.mem_cons_self) hkey
          refine hdescend hname ?_ h
          split <;> rfl
      · cases h

/-- The parts of a path that a target writes to, its field apart, and the field. -/
theorem valid_modificationTarget {p : Platform} {arrayIndices : Option (List ArrayStep)}
    {noCreate forbidArray : Bool} {document document' : Value} {path : Text} {target : Target}
    (hparts : noCreate = true ∨ ∀ part ∈ (splitPath path).dropLast, PartOk part) (hd : Valid document)
    (h : modificationTarget p arrayIndices noCreate forbidArray document path = .ok (document', target)) :
    Valid document' ∧ (∀ keys, target.parent = some keys → ∀ key ∈ keys, NameOk key) ∧
      ((∀ part ∈ splitPath path, PartOk part) → target.parent.isSome → NameOk target.field) := by
  unfold modificationTarget at h
  dsimp only at h
  split at h
  · cases h
  · next hfield =>
    obtain ⟨⟨document₁, keys, positional⟩, hwalk, h⟩ := bind_eq_ok h
    obtain ⟨hvalid, hnames⟩ := valid_walk hparts hd hwalk
    have hlast : (∀ part ∈ splitPath path, PartOk part) → PartOk ((splitPath path).getLastD []) := by
      intro hall
      refine hall _ ?_
      cases hsplit : splitPath path with
      | nil => rw [hsplit] at hfield; exact absurd rfl hfield
      | cons part parts => exact List.getLast_mem _
    dsimp only at h
    split at h
    · next hnone =>
      cases h
      exact ⟨hvalid, nofun, nofun⟩
    · obtain ⟨⟨field, rest⟩, hkey, h⟩ := bind_eq_ok h
      cases h
      exact ⟨hvalid, hnames, fun hall _ => nameOk_keyOf (hlast hall) hkey⟩

/-! ## What the operators write -/

theorem mem_sliced {n : Number} {xs : List Value} {x : Value} (h : x ∈ sliced n xs) : x ∈ xs := by
  unfold sliced at h
  dsimp only at h
  split at h
  · cases h
  · split at h
    · exact List.mem_of_mem_drop h
    · exact List.mem_of_mem_take h

theorem mem_sortElements {specifier : Value} {xs ys : List Value}
    (h : sortElements specifier xs = .ok ys) {y : Value} (hy : y ∈ ys) : y ∈ xs := by
  obtain ⟨parts, -, h⟩ := bind_eq_ok h
  obtain ⟨sorted, hsorted, h⟩ := bind_eq_ok h
  cases h
  rcases List.mem_append.mp hy with hy | hy
  · exact (List.mem_filter.mp ((sortByParts_perm hsorted).mem_iff.mp hy)).1
  · exact (List.mem_filter.mp hy).1

theorem mem_pushSort {specifier slice : Value} {each xs ys : List Value}
    (h : pushSort specifier slice each xs = .ok ys) {y : Value} (hy : y ∈ ys) : y ∈ xs := by
  unfold pushSort at h
  split at h
  · cases h
    exact hy
  · split at h
    · cases h
    · split at h
      · cases h
      · exact mem_sortElements h hy

theorem mem_pushSlice {slice : Value} {xs ys : List Value} (h : pushSlice slice xs = .ok ys) {y : Value}
    (hy : y ∈ ys) : y ∈ xs := by
  unfold pushSlice at h
  split at h
  · cases h
    exact hy
  · cases h
    exact mem_sliced hy
  · cases h

/-- What `$push` puts in was checked. -/
theorem valid_pushed {argument : Value} {current ys : List Value}
    (h : pushed argument current = .ok ys) (hcurrent : ∀ x ∈ current, Valid x) : ∀ y ∈ ys, Valid y := by
  unfold pushed at h
  dsimp only at h
  split at h
  · obtain ⟨⟨⟩, hargument, h⟩ := bind_eq_ok h
    cases h
    intro y hy
    rcases List.mem_append.mp hy with hy | hy
    · exact hcurrent y hy
    · rw [List.mem_singleton.mp hy]
      exact hargument
  · next each heach =>
    obtain ⟨⟨⟩, hassert, h⟩ := bind_eq_ok h
    obtain ⟨index, -, h⟩ := bind_eq_ok h
    obtain ⟨sorted, hsorted, h⟩ := bind_eq_ok h
    have hspliced : ∀ y ∈ current.take index ++ each ++ current.drop index, Valid y := by
      intro y hy
      rcases List.mem_append.mp hy with hy | hy
      · rcases List.mem_append.mp hy with hy | hy
        · exact hcurrent y (List.mem_of_mem_take hy)
        · exact assertElems_iff.mp hassert y hy
      · exact hcurrent y (List.mem_of_mem_drop hy)
    exact fun y hy => hspliced y (mem_pushSort hsorted (mem_pushSlice h hy))
  · cases h

theorem mem_addToSet {y : Value} : ∀ {items current : List Value}, y ∈ addToSet items current →
    y ∈ current ∨ y ∈ items
  | [], _, h => .inl h
  | item :: items, current, h => by
    rw [addToSet, List.foldl_cons] at h
    rcases mem_addToSet h with h | h
    · split at h
      · exact .inl h
      · rcases List.mem_append.mp h with h | h
        · exact .inl h
        · exact .inr (List.mem_singleton.mp h ▸ List.mem_cons_self)
    · exact .inr (List.mem_cons_of_mem _ h)

theorem mem_pull {p : Platform} {items : List Value} {y : Value} : ∀ {xs ys : List Value},
    pull p items xs = .ok ys → y ∈ ys → y ∈ xs
  | [], ys, h, hy => by
    cases h
    exact hy
  | x :: xs, ys, h, hy => by
    obtain ⟨pulled, -, h⟩ := bind_eq_ok h
    obtain ⟨kept, hkept, h⟩ := bind_eq_ok h
    cases h
    split at hy
    · exact List.mem_cons_of_mem _ (mem_pull hkept hy)
    · rcases List.mem_cons.mp hy with rfl | hy
      · exact List.mem_cons_self
      · exact List.mem_cons_of_mem _ (mem_pull hkept hy)

/-- The operators that write their field whether it is there or not. -/
def writeOperators : List Text :=
  arithmeticOperators ++ [js "$set", js "$currentDate", js "$push", js "$pushAll", js "$addToSet"]

/-- What an argument has to be for the operators that do not look at its names. -/
def ArgumentOk (operator : Text) (argument : Value) : Prop :=
  (operator = js "$pushAll" → Valid argument) ∧
    (operator = js "$addToSet" → ∀ item ∈ addToSetItems argument, Valid item)

/-- What an operator does to a document once its target is found. -/
inductive Applied (p : Platform) (operator : Text) (argument : Value) (target : Target)
    (document : Value) : Value → Prop where
  | same : Applied p operator argument target document document
  | written {x document' : Value}
      (hoperator : operator ∈ writeOperators ∨ readField target document ≠ .undefined)
      (hx : Valid document → ArgumentOk operator argument → Valid x)
      (h : writeField p target x document = .ok document') :
      Applied p operator argument target document document'
  | removed {document' : Value} (h : removeField p target document = .ok document') :
      Applied p operator argument target document document'
  | renamed {path : Text} {document₁ document₂ document' : Value} {destination : Target}
      (hoperator : operator = js "$rename") (hargument : argument = .str path)
      (hremove : removeField p target document = .ok document₁)
      (hdestination : modificationTarget p none false true document₁ path = .ok (document₂, destination))
      (h : writeField p destination (readField target document) document₂ = .ok document') :
      Applied p operator argument target document document'

theorem applied_of_push {p : Platform} {operator : Text} {argument document document' : Value}
    {target : Target} (hoperator : operator ∈ writeOperators)
    (h : applyPush p target argument document = .ok document') :
    Applied p operator argument target document document' := by
  unfold applyPush at h
  split at h
  · obtain ⟨ys, hys, h⟩ := bind_eq_ok h
    exact .written (.inl hoperator) (fun _ _ => valid_arr.mpr (valid_pushed hys fun _ hx =>
      absurd hx List.not_mem_nil)) h
  · next xs hxs =>
    obtain ⟨ys, hys, h⟩ := bind_eq_ok h
    refine .written (.inl hoperator) (fun hd _ => valid_arr.mpr (valid_pushed hys ?_)) h
    exact valid_arr.mp (hxs ▸ valid_readField hd)
  · cases h

theorem applied_of_arithmetic {p : Platform} {operator : Text} {argument document document' : Value}
    {target : Target} (hoperator : operator ∈ writeOperators) {r : Option Number}
    (h : r.elim (.ok document) (fun n => writeField p target (.num n) document) = .ok document') :
    Applied p operator argument target document document' := by
  cases r with
  | none =>
    cases h
    exact .same
  | some n =>
    have hn : Valid (.num n) := rfl
    exact .written (.inl hoperator) (fun _ _ => hn) h

theorem applied_of_applyAt {p : Platform} {options : ModifyOptions} {operator path : Text}
    {argument document document' : Value} {target : Target}
    (h : applyAt p options operator path argument target document = .ok document') :
    Applied p operator argument target document document' := by
  unfold applyAt at h
  by_cases hop : operator = js "$set"
  · rw [if_pos hop] at h
    obtain ⟨⟨⟩, hargument, h⟩ := bind_eq_ok h
    exact .written (.inl (by rw [hop]; decide)) (fun _ _ => hargument) h
  rw [if_neg hop] at h
  by_cases hop : operator = js "$unset"
  · rw [if_pos hop] at h
    exact .removed h
  rw [if_neg hop] at h
  by_cases hop : operator ∈ arithmeticOperators
  · rw [if_pos hop] at h
    have hwrite : operator ∈ writeOperators := List.mem_append_left _ hop
    split at h
    · exact applied_of_arithmetic hwrite h
    · exact applied_of_arithmetic hwrite h
    · cases h
    · cases h
  rw [if_neg hop] at h
  by_cases hop : operator = js "$currentDate"
  · rw [if_pos hop] at h
    split at h
    · have hdate : Valid (.date (some options.now)) := rfl
      exact .written (.inl (by rw [hop]; decide)) (fun _ _ => hdate) h
    · cases h
  rw [if_neg hop] at h
  by_cases hop : operator = js "$rename"
  · rw [if_pos hop] at h
    split at h
    · next renamed =>
      split at h
      · cases h
      split at h
      · cases h
      split at h
      · cases h
        exact .same
      · obtain ⟨document₁, hremove, h⟩ := bind_eq_ok h
        obtain ⟨⟨document₂, destination⟩, hdestination, h⟩ := bind_eq_ok h
        exact .renamed hop rfl hremove hdestination h
    · cases h
  rw [if_neg hop] at h
  by_cases hop : operator = js "$push"
  · rw [if_pos hop] at h
    exact applied_of_push (by rw [hop]; decide) h
  rw [if_neg hop] at h
  by_cases hop : operator = js "$pushAll"
  · rw [if_pos hop] at h
    have hwrite : operator ∈ writeOperators := by rw [hop]; decide
    split at h
    · exact .written (.inl hwrite) (fun _ hargument => hargument.1 hop) h
    · next items xs hxs =>
      refine .written (.inl hwrite) (fun hd hargument => valid_arr.mpr fun x hx => ?_) h
      rcases List.mem_append.mp hx with hx | hx
      · exact valid_arr.mp (hxs ▸ valid_readField hd) x hx
      · exact valid_arr.mp (hargument.1 hop) x hx
    · cases h
    · cases h
  rw [if_neg hop] at h
  by_cases hop : operator = js "$addToSet"
  · rw [if_pos hop] at h
    have hwrite : operator ∈ writeOperators := by rw [hop]; decide
    split at h
    · exact .written (.inl hwrite) (fun _ hargument => valid_arr.mpr (hargument.2 hop)) h
    · next xs hxs =>
      refine .written (.inl hwrite) (fun hd hargument => valid_arr.mpr fun x hx => ?_) h
      rcases mem_addToSet hx with hx | hx
      · exact valid_arr.mp (hxs ▸ valid_readField hd) x hx
      · exact hargument.2 hop x hx
    · cases h
  rw [if_neg hop] at h
  by_cases hop : operator = js "$pop"
  · rw [if_pos hop] at h
    split at h
    · cases h
      exact .same
    · next xs hxs =>
      refine .written (.inr (by rw [hxs]; nofun)) (fun hd _ => valid_arr.mpr fun x hx => ?_) h
      have hall := valid_arr.mp (hxs ▸ valid_readField hd)
      split at hx
      · exact hall x (List.mem_of_mem_tail hx)
      · exact hall x (List.mem_of_mem_dropLast hx)
    · cases h
  rw [if_neg hop] at h
  by_cases hop : operator = js "$pull" ∨ operator = js "$pullAll"
  · rw [if_pos hop] at h
    split at h
    · cases h
      exact .same
    · next xs hxs =>
      obtain ⟨items, -, h⟩ := bind_eq_ok h
      obtain ⟨kept, hkept, h⟩ := bind_eq_ok h
      refine .written (.inr (by rw [hxs]; nofun)) (fun hd _ => valid_arr.mpr fun x hx => ?_) h
      exact valid_arr.mp (hxs ▸ valid_readField hd) x (mem_pull hkept hx)
    · cases h
  rw [if_neg hop] at h
  by_cases hop : operator = js "$bit"
  · rw [if_pos hop] at h
    cases h
  rw [if_neg hop] at h
  by_cases hop : operator = js "$v"
  · rw [if_pos hop] at h
    cases h
    exact .same
  rw [if_neg hop] at h
  cases h

/-- An operator that gets through is one of those that are there. -/
theorem known_of_applyAt {p : Platform} {options : ModifyOptions} {operator path : Text}
    {argument document document' : Value} {target : Target}
    (h : applyAt p options operator path argument target document = .ok document') :
    operator ∈ writeOperators ∨ operator ∈ noCreateOperators ∨
      operator = js "$rename" ∨ operator = js "$v" := by
  by_contra hnot
  simp only [writeOperators, noCreateOperators, List.mem_append, List.mem_cons, List.not_mem_nil,
    or_false, not_or] at hnot
  obtain ⟨⟨harithmetic, hset, hdate, hpush, hpushAll, haddToSet⟩, ⟨hunset, hpop, hpull, hpullAll⟩,
    hrename, hv⟩ := hnot
  unfold applyAt at h
  rw [if_neg hset, if_neg hunset, if_neg harithmetic, if_neg hdate, if_neg hrename,
    if_neg hpush, if_neg hpushAll, if_neg haddToSet, if_neg hpop,
    if_neg (not_or.mpr ⟨hpull, hpullAll⟩)] at h
  by_cases hbit : operator = js "$bit"
  · rw [if_pos hbit] at h
    cases h
  · rw [if_neg hbit, if_neg hv] at h
    cases h

/-- The parts of a path that may become names. -/
def writtenParts (operator path : Text) : List Text :=
  if operator ∈ writeOperators then splitPath path
  else if operator = js "$rename" ∨ operator = js "$v" then (splitPath path).dropLast
  else []

/-- A field of an update that writes no name but valid ones and keeps off the `_id`. -/
structure FieldOk (operator path : Text) (argument : Value) : Prop where
  parts : ∀ part ∈ writtenParts operator path, PartOk part
  items : ArgumentOk operator argument
  renamed : operator = js "$rename" → ∀ renamed, argument = .str renamed →
    renamed ≠ js "_id" ∧ ∀ part ∈ splitPath renamed, PartOk part

theorem FieldOk.parents {operator path : Text} {argument : Value} (h : FieldOk operator path argument)
    (hknown : operator ∈ writeOperators ∨ operator ∈ noCreateOperators ∨
      operator = js "$rename" ∨ operator = js "$v") :
    decide (operator ∈ noCreateOperators) = true ∨ ∀ part ∈ (splitPath path).dropLast, PartOk part := by
  by_cases hwrite : operator ∈ writeOperators
  · refine .inr fun part hpart => h.parts part ?_
    rw [writtenParts, if_pos hwrite]
    exact List.mem_of_mem_dropLast hpart
  · rcases hknown with hknown | hknown | hknown
    · exact absurd hknown hwrite
    · exact .inl (decide_eq_true hknown)
    · refine .inr fun part hpart => h.parts part ?_
      rw [writtenParts, if_neg hwrite, if_pos hknown]
      exact hpart

theorem valid_applied {p : Platform} {operator path : Text} {argument document document' : Value}
    {target : Target} (hfield : FieldOk operator path argument)
    (hkeys : ∀ keys, target.parent = some keys → ∀ key ∈ keys, NameOk key)
    (hname : (∀ part ∈ splitPath path, PartOk part) → target.parent.isSome → NameOk target.field)
    (hd : Valid document) (h : Applied p operator argument target document document') :
    Valid document' := by
  cases h with
  | same => exact hd
  | written hoperator hx h =>
    refine valid_writeField hkeys (fun hsome => ?_) hd (hx hd hfield.items) h
    rcases hoperator with hwrite | hread
    · refine hname (fun part hpart => hfield.parts part ?_) hsome
      rw [writtenParts, if_pos hwrite]
      exact hpart
    · exact nameOk_of_readField hd hread
  | removed h => exact valid_removeField hkeys hd h
  | renamed hoperator hargument hremove hdestination h =>
    have hparts := (hfield.renamed hoperator _ hargument).2
    obtain ⟨hvalid, hkeys', hname'⟩ := valid_modificationTarget
      (.inr fun part hpart => hparts part (List.mem_of_mem_dropLast hpart))
      (valid_removeField hkeys hd hremove) hdestination
    exact valid_writeField hkeys' (hname' hparts) hvalid (valid_readField hd) h

theorem valid_applyModifierOperator {p : Platform} {options : ModifyOptions} {operator path : Text}
    {argument document document' : Value} (hinsert : options.isInsert = false)
    (hfield : FieldOk operator path argument) (hd : Valid document)
    (h : applyModifierOperator p options operator path argument document = .ok document') :
    Valid document' := by
  unfold applyModifierOperator at h
  by_cases hop : operator = js "$setOnInsert"
  · rw [if_pos ⟨hop, hinsert⟩] at h
    cases h
    exact hd
  · rw [if_neg fun hboth => hop hboth.1] at h
    dsimp only at h
    rw [if_neg hop] at h
    obtain ⟨⟨document₁, target⟩, htarget, h⟩ := bind_eq_ok h
    obtain ⟨hvalid, hkeys, hname⟩ := valid_modificationTarget
      (hfield.parents (known_of_applyAt h)) hd htarget
    exact valid_applied hfield hkeys hname hvalid (applied_of_applyAt h)

end TypeFerry.Minimongo.Names
