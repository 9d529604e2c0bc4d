import TypeFerry.Minimongo.Order
import TypeFerry.Minimongo.Representation

/-! # Places of a document

A path names a place: a key of an object or an index of an array at every step.
The walk of an update to the parent of its field, and what is put back along the
keys of the walk, are seen here from the places: which of them still read the
same. -/
namespace TypeFerry.Minimongo.Places
open TypeFerry.Lib.Numeral TypeFerry.Lib.JsonText TypeFerry.Ejson.Clone TypeFerry.Ejson.Canonical
open TypeFerry.Ejson.Encode TypeFerry.Minimongo.Names
open TypeFerry.Minimongo.Values TypeFerry.Minimongo.Modifier TypeFerry.Minimongo.Order
open TypeFerry.Minimongo.Representation

/-- The member of an object, or the element of an array under its index. -/
def member : Value → Text → Value
  | .obj ms, key => (getOwn key ms).getD .undefined
  | .arr xs, key => (arrayKey? key).elim .undefined fun i => xs.getD i .undefined
  | _, _ => .undefined

/-- The value at a place; a missing one reads as `undefined`. -/
def readPath : List Text → Value → Value
  | [], v => v
  | key :: keys, v => readPath keys (member v key)

/-- Neither place lies in the other. -/
def Apart (p q : List Text) : Prop := ¬p <+: q ∧ ¬q <+: p

theorem Apart.symm {p q : List Text} (h : Apart p q) : Apart q p := ⟨h.2, h.1⟩

theorem readPath_append (p q : List Text) (v : Value) :
    readPath (p ++ q) v = readPath q (readPath p v) := by
  induction p generalizing v with
  | nil => rfl
  | cons key p ih => exact ih (member v key)

theorem readPath_concat (keys : List Text) (field : Text) (v : Value) :
    readPath (keys ++ [field]) v = member (readPath keys v) field := readPath_append keys [field] v

@[simp] theorem member_undefined (key : Text) : member .undefined key = .undefined := rfl

@[simp] theorem readPath_undefined (q : List Text) : readPath q .undefined = .undefined := by
  induction q with
  | nil => rfl
  | cons key q ih => exact ih

/-- Nothing is below what has no members. -/
theorem readPath_of_member {v : Value} (h : ∀ key, member v key = .undefined) {q : List Text}
    (hq : q ≠ []) : readPath q v = .undefined := by
  cases q with
  | nil => exact absurd rfl hq
  | cons key q => rw [readPath, h, readPath_undefined]

/-- The length of an array is no member. -/
theorem arrayKey?_length : arrayKey? (js "length") = none := by decide

theorem arrayKey?_eq {key : Text} {i : ℕ} (h : arrayKey? key = some i) : key = indexText i := by
  unfold arrayKey? at h
  split at h
  · next hkey =>
    cases h
    exact hkey.2.1.symm
  · cases h

theorem keyIndex_indexText (i : ℕ) : keyIndex (indexText i) = i := by
  have hread := readDigits_append (r := []) (fun d hd => digitsOf_lt (n := i) hd) nofun
  rw [List.append_nil] at hread
  rw [keyIndex, indexText, hread]
  exact natOf_digitsOf i

theorem arrayKey?_indexText {i : ℕ} (h : i < 2 ^ 32 - 1) : arrayKey? (indexText i) = some i := by
  rw [arrayKey?, keyIndex_indexText, if_pos ⟨isNumericKey_indexText i, rfl, h⟩]

theorem getKey_eq_member {v : Value} {key : Text} (h : isArray v → key ≠ js "length") :
    getKey v key = member v key := by
  cases v with
  | arr xs =>
    rw [getKey, if_neg (h rfl), member]
    cases arrayKey? key <;> rfl
  | _ => rfl

/-- The field that a path names. -/
def fieldOf (path : Text) : Text := (splitPath path).getLastD []

theorem splitPath_eq (path : Text) : (splitPath path).dropLast ++ [fieldOf path] = splitPath path := by
  have hne : splitPath path ≠ [] := List.splitOn_ne_nil 46 path
  rw [fieldOf, List.getLastD_eq_getLast?, List.getLast?_eq_some_getLast hne, Option.getD_some]
  exact List.dropLast_append_getLast hne

/-! ## Distinct keys -/

theorem distinctKeys_getOwn {ms : List (Text × Value)} {key : Text} (h : DistinctKeysEntries ms) :
    DistinctKeys ((getOwn key ms).getD .undefined) := by
  cases hown : getOwn key ms with
  | none => trivial
  | some v => exact distinctKeysEntries_iff.mp h _ (mem_of_getOwn hown)

theorem distinctKeys_getD {xs : List Value} {i : ℕ} (h : DistinctKeysElems xs) :
    DistinctKeys (xs.getD i .undefined) := by
  rw [List.getD_eq_getElem?_getD]
  cases hi : xs[i]? with
  | none => trivial
  | some x => exact distinctKeysElems_iff.mp h x (List.mem_of_getElem? hi)

theorem distinctKeys_member {v : Value} (key : Text) (h : DistinctKeys v) :
    DistinctKeys (member v key) := by
  cases v with
  | obj ms => exact distinctKeys_getOwn h.2
  | arr xs =>
    rw [member]
    cases arrayKey? key with
    | none => trivial
    | some i => exact distinctKeys_getD h
  | _ => trivial

theorem distinctKeys_getKey {v : Value} (key : Text) (h : DistinctKeys v) : DistinctKeys (getKey v key) := by
  by_cases hlength : isArray v ∧ key = js "length"
  · obtain ⟨harr, rfl⟩ := hlength
    cases v <;> trivial
  · rw [getKey_eq_member fun harr heq => hlength ⟨harr, heq⟩]
    exact distinctKeys_member key h

theorem distinctKeys_readPath (q : List Text) {v : Value} (h : DistinctKeys v) :
    DistinctKeys (readPath q v) := by
  induction q generalizing v with
  | nil => exact h
  | cons key q ih => exact ih (distinctKeys_member key h)

theorem mem_setElem {xs : List Value} {i : ℕ} {x y : Value} (h : y ∈ setElem i x xs) :
    y ∈ xs ∨ y = .undefined ∨ y = x := by
  unfold setElem at h
  split at h
  · exact (List.mem_or_eq_of_mem_set h).imp_right .inr
  · rcases List.mem_append.mp h with h | h
    · exact (List.mem_append.mp h).imp_right fun h => .inl (List.eq_of_mem_replicate h)
    · exact .inr (.inr (List.mem_singleton.mp h))

theorem mem_setLength {p : Platform} {v y : Value} {xs ys : List Value} (h : setLength p v xs = .ok ys)
    (hy : y ∈ ys) : y ∈ xs ∨ y = .undefined := by
  unfold setLength at h
  split at h
  · split at h
    · cases h
      exact (List.mem_append.mp hy).imp (fun h => List.mem_of_mem_take h) List.eq_of_mem_replicate
    · cases h
  · cases h

theorem distinctKeys_setKey {p : Platform} {key : Text} {x v v' : Value} (hx : DistinctKeys x)
    (hv : DistinctKeys v) (h : setKey p key x v = .ok v') : DistinctKeys v' := by
  cases v with
  | obj ms =>
    cases h
    refine ⟨stable_nodup.set trivial hv.1, distinctKeysEntries_iff.mpr fun m hm => ?_⟩
    rcases mem_assign ((enumerate_perm _).mem_iff.mp hm) with hm | ⟨rfl, -⟩
    · exact distinctKeysEntries_iff.mp hv.2 m hm
    · exact hx
  | arr xs =>
    rw [setKey] at h
    split at h
    · obtain ⟨ys, hys, h⟩ := bind_eq_ok h
      cases h
      refine distinctKeysElems_iff.mpr fun y hy => ?_
      rcases mem_setLength hys hy with hy | rfl
      · exact distinctKeysElems_iff.mp hv y hy
      · trivial
    · split at h
      · cases h
        refine distinctKeysElems_iff.mpr fun y hy => ?_
        rcases mem_setElem hy with hy | rfl | rfl
        · exact distinctKeysElems_iff.mp hv y hy
        · trivial
        · exact hx
      · cases h
        exact hv
  | _ =>
    cases h
    exact hv

/-! ## Copies -/

mutual

theorem distinctKeys_cloneValue : ∀ v : Value, DistinctKeys (cloneValue v)
  | .arr xs => distinctKeys_cloneValues xs
  | .obj ms => by
    rw [cloneValue]
    refine ⟨nodup_rebuilt _ List.nodup_nil, distinctKeysEntries_iff.mpr fun m hm => ?_⟩
    rcases mem_rebuilt hm with hm | ⟨hm, -⟩
    · cases hm
    · exact distinctKeysEntries_iff.mp (distinctKeys_cloneEntries ms) m hm
  | .undefined | .null | .bool _ | .num _ | .str _ | .date _ | .regexp _ | .binary _ => trivial

theorem distinctKeys_cloneValues : ∀ xs : List Value, DistinctKeysElems (cloneValues xs)
  | [] => trivial
  | x :: xs => ⟨distinctKeys_cloneValue x, distinctKeys_cloneValues xs⟩

theorem distinctKeys_cloneEntries : ∀ ms : List (Text × Value), DistinctKeysEntries (cloneEntries ms)
  | [] => trivial
  | (_, v) :: ms => ⟨distinctKeys_cloneValue v, distinctKeys_cloneEntries ms⟩

end

/-! ## Writing one property -/

theorem getD_setElem {xs : List Value} {i : ℕ} {x : Value} (j : ℕ) :
    (setElem i x xs).getD j .undefined = if j = i then x else xs.getD j .undefined := by
  unfold setElem
  simp only [List.getD_eq_getElem?_getD]
  split
  · next hi =>
    rw [List.getElem?_set]
    by_cases hij : i = j
    · simp [hij, hij ▸ hi]
    · simp [hij, Ne.symm hij]
  · next hi =>
    have hlength : (xs ++ List.replicate (i - xs.length) Value.undefined).length = i := by simp; omega
    rcases Nat.lt_trichotomy j i with hj | rfl | hj
    · rw [List.getElem?_append_left (by rw [hlength]; exact hj), if_neg (by omega)]
      by_cases hjx : j < xs.length
      · rw [List.getElem?_append_left hjx]
      · rw [List.getElem?_append_right (by omega), List.getElem?_replicate,
          List.getElem?_eq_none (l := xs) (by omega)]
        split <;> rfl
    · rw [List.getElem?_append_right (by rw [hlength]), hlength]
      simp
    · rw [List.getElem?_eq_none (by simp; omega), List.getElem?_eq_none (l := xs) (by omega),
        if_neg (by omega)]

theorem getOwn_setMember_self {key : Text} {x : Value} : ∀ ms : List (Text × Value),
    getOwn key (setMember key x ms) = some x
  | [] => by simp [setMember, getOwn]
  | (k, y) :: ms => by
    rw [setMember]
    split
    · next hk => rw [hk, getOwn, List.lookup_cons_self]
    · next hk =>
      rw [getOwn, List.lookup_cons, beq_false_of_ne (Ne.symm hk)]
      exact getOwn_setMember_self ms

theorem getOwn_enumerate {ms : List (Text × Value)} (h : (ms.map Prod.fst).Nodup) (key : Text) :
    getOwn key (enumerate ms) = getOwn key ms := getOwn_perm h (enumerate_perm ms).symm key

theorem getOwn_set {ms : List (Text × Value)} (h : (ms.map Prod.fst).Nodup) {key : Text} {x : Value}
    (hkey : key ≠ js "__proto__") (k : Text) :
    getOwn k (enumerate (assign key x ms)) = if k = key then some x else getOwn k ms := by
  rw [getOwn_enumerate (nodup_assign h)]
  split
  · next heq => rw [heq, assign, if_neg hkey, getOwn_setMember_self]
  · next hne => exact getOwn_assign_ne hne ms

/-- A key that writing reaches: a key of an object, or an index of an array. -/
def enters : Value → Text → Bool
  | .obj _, key => key ≠ js "__proto__"
  | .arr _, key => (arrayKey? key).isSome
  | _, _ => false

/-- Writing a key changes the member under this key only, if it changes any. -/
theorem member_setKey {p : Platform} {key : Text} {x v v' : Value} (hv : DistinctKeys v)
    (hlength : isArray v → key ≠ js "length") (h : setKey p key x v = .ok v') (k : Text) :
    member v' k = if k = key ∧ enters v key then x else member v k := by
  cases v with
  | obj ms =>
    cases h
    by_cases hproto : key = js "__proto__"
    · rw [if_neg fun hk => absurd hproto (of_decide_eq_true hk.2), member, member, assign, if_pos hproto,
        getOwn_enumerate hv.1]
    · rw [member, member, getOwn_set hv.1 hproto]
      by_cases hk : k = key
      · rw [if_pos hk, if_pos ⟨hk, decide_eq_true hproto⟩]
        rfl
      · rw [if_neg hk, if_neg fun h => hk h.1]
  | arr xs =>
    rw [setKey, if_neg (hlength rfl)] at h
    cases hkey : arrayKey? key with
    | none =>
      rw [hkey] at h
      cases h
      rw [if_neg fun hk => by simp [enters, hkey] at hk]
    | some i =>
      rw [hkey] at h
      cases h
      rw [member, member]
      by_cases hk : k = key
      · rw [if_pos ⟨hk, by simp [enters, hkey]⟩, hk, hkey, Option.elim, getD_setElem, if_pos rfl]
      · rw [if_neg fun h => hk h.1]
        cases hindex : arrayKey? k with
        | none => rfl
        | some j =>
          have hne : j ≠ i := by
            intro hji
            rw [arrayKey?_eq hindex, arrayKey?_eq hkey, hji] at hk
            exact hk rfl
          rw [Option.elim, Option.elim, getD_setElem, if_neg hne]
  | _ =>
    cases h
    rw [if_neg fun hk => Bool.false_ne_true hk.2]

/-! ## The walk -/

/-- What the walk puts in the place of a missing container before the parts that are left. -/
def filled (rest : List Text) : Value → Value
  | .undefined | .null => if rest.head?.any isNumericKey then .arr [] else .obj []
  | v => v

/-- No key on the way is the length of an array. -/
def Walkable : List Text → Value → Prop
  | [], _ => True
  | key :: keys, v => (isArray v → key ≠ js "length") ∧ Walkable keys (member v key)

/-- Every key on the way is one that writing reaches. -/
def Reached : List Text → Value → Prop
  | [], _ => True
  | key :: keys, v => enters v key ∧ Reached keys (member v key)

theorem reached_append {p q : List Text} {v : Value} :
    Reached (p ++ q) v ↔ Reached p v ∧ Reached q (readPath p v) := by
  induction p generalizing v with
  | nil => exact ⟨fun h => ⟨trivial, h⟩, fun h => h.2⟩
  | cons key p ih => exact (and_congr_right fun _ => ih).trans (and_assoc).symm

/-- The keys lead through containers that are there, or that the walk along the parts
creates, to one with the property `P`. -/
def Placed (P : Value → Prop) : List Text → List Text → Value → Prop
  | _ :: parts, key :: keys, v =>
    enters v key ∧ Placed P parts keys (filled parts (member v key))
  | _, _, v => P v

theorem enters_setKey {p : Platform} {key : Text} {x v v' : Value} (h : setKey p key x v = .ok v') :
    enters v' = enters v := by
  cases v with
  | obj ms => cases h; rfl
  | arr xs =>
    rw [setKey] at h
    split at h
    · obtain ⟨ys, -, h⟩ := bind_eq_ok h
      cases h
      rfl
    · split at h <;> cases h <;> rfl
  | _ => cases h; rfl

theorem walkable_undefined (keys : List Text) : Walkable keys .undefined := by
  induction keys with
  | nil => trivial
  | cons key keys ih => exact ⟨nofun, ih⟩

theorem distinctKeys_filled {rest : List Text} {v : Value} (h : DistinctKeys v) :
    DistinctKeys (filled rest v) := by
  unfold filled
  split
  · split <;> trivial
  · split <;> trivial
  · exact h

/-- A container created for nothing reads as nothing. -/
theorem readPath_filled {rest q : List Text} {v : Value} (hq : q ≠ []) :
    readPath q (filled rest v) = readPath q v := by
  have hempty : readPath q (if rest.head?.any isNumericKey then Value.arr [] else .obj []) = .undefined := by
    refine readPath_of_member (fun key => ?_) hq
    split
    · rw [member]
      cases arrayKey? key <;> rfl
    · rfl
  unfold filled
  split
  · rw [hempty, readPath_undefined]
  · rw [hempty, readPath_of_member (fun key => rfl) hq]
  · rfl

/-- One step of a walk that goes on. -/
theorem walk_cons {p : Platform} {noCreate forbidArray : Bool} {part : Text} {parts : List Text}
    {positional positional' : List ℕ} {current current' : Value} {keys : Option (List Text)}
    (h : walk p noCreate forbidArray (part :: parts) positional current =
      .ok (current', keys, positional')) :
    ∃ key rest, keyOf part positional = .ok (key, rest) ∧ (isArray current → key ≠ js "length") ∧
      (forbidArray → ¬isArray current) ∧
      ((current' = current ∧ keys = none ∧ noCreate ∧ isPlainObject (member current key) = false ∧
          isArray (member current key) = false) ∨ ∃ child keys',
        walk p noCreate forbidArray parts rest (filled parts (member current key)) =
          .ok (child, keys', positional') ∧
        setKey p key child current = .ok current' ∧ keys = keys'.map (key :: ·)) := by
  unfold walk at h
  obtain ⟨⟨key, rest⟩, hkey, h⟩ := bind_eq_ok h
  refine ⟨key, rest, hkey, ?_⟩
  have hdescend : ∀ {child : Value},
      (do
        let r ← walk p noCreate forbidArray parts rest child
        let v ← setKey p key r.1 current
        .ok (v, r.2.1.map (key :: ·), r.2.2)) = Except.ok (current', keys, positional') →
      ∃ child' keys', walk p noCreate forbidArray parts rest child = .ok (child', keys', positional') ∧
        setKey p key child' current = .ok current' ∧ keys = keys'.map (key :: ·) := by
    intro child hwalk
    obtain ⟨⟨child', keys', positional₂⟩, hchild, hwalk⟩ := bind_eq_ok hwalk
    obtain ⟨v, hset, hwalk⟩ := bind_eq_ok hwalk
    cases hwalk
    exact ⟨child', keys', hchild, hset, rfl⟩
  dsimp only at h
  split at h
  · cases h
  · next hforbid =>
    have hforbidden : forbidArray = true → ¬isArray current = true := fun hf harr =>
      hforbid (by rw [hf, harr]; rfl)
    -- The length of an array is a number, on which the walk throws.
    have hlength : isArray current = true → key ≠ js "length" := by
      intro harr heq
      cases current with
      | arr xs =>
        rw [heq, getKey, if_pos rfl] at h
        cases h
      | _ => cases harr
    refine ⟨hlength, hforbidden, ?_⟩
    rw [getKey_eq_member hlength] at h
    split at h
    · next heq => exact .inr (heq ▸ hdescend h)
    · next heq => exact .inr (heq ▸ hdescend h)
    · next heq =>
      split at h
      · next hno =>
        cases h
        exact .inl ⟨rfl, rfl, hno, heq ▸ rfl, heq ▸ rfl⟩
      · exact .inr (heq ▸ hdescend h)
    · next heq =>
      split at h
      · next hno =>
        cases h
        exact .inl ⟨rfl, rfl, hno, heq ▸ rfl, heq ▸ rfl⟩
      · exact .inr (heq ▸ hdescend h)
    · cases h

theorem walkable_of_filled {keys rest : List Text} {v : Value} (h : Walkable keys (filled rest v)) :
    Walkable keys v := by
  cases keys with
  | nil => trivial
  | cons key keys =>
    unfold filled at h
    split at h
    · exact walkable_undefined (key :: keys)
    · exact ⟨nofun, walkable_undefined keys⟩
    · exact h

/-- What a walk to the end of the keys leaves. -/
structure Walked (keys : List Text) (current current' : Value) : Prop where
  distinct : DistinctKeys current'
  walkable : Walkable keys current
  walkable' : Walkable keys current'
  /-- Only the containers on the way are touched. -/
  same : ∀ q, ¬q <+: keys → readPath q current' = readPath q current

theorem isArray_setKey {p : Platform} {key : Text} {x v v' : Value} (h : setKey p key x v = .ok v') :
    isArray v' = isArray v := by
  cases v with
  | obj ms => cases h; rfl
  | arr xs =>
    rw [setKey] at h
    split at h
    · obtain ⟨ys, -, h⟩ := bind_eq_ok h
      cases h
      rfl
    · split at h <;> cases h <;> rfl
  | _ => cases h; rfl

theorem readPath_setKey_of_same {p : Platform} {key : Text} {keys rest : List Text}
    {current current' child : Value} (hv : DistinctKeys current)
    (hlength : isArray current → key ≠ js "length")
    (hset : setKey p key child current = .ok current')
    (hsame : ∀ q, ¬q <+: keys → readPath q child = readPath q (filled rest (member current key)))
    {q : List Text} (hq : ¬q <+: key :: keys) : readPath q current' = readPath q current := by
  cases q with
  | nil => exact absurd List.nil_prefix hq
  | cons k q =>
    rw [readPath, readPath, member_setKey hv hlength hset]
    split
    · next hk =>
      obtain ⟨rfl, -⟩ := hk
      have hq' : ¬q <+: keys := fun h => hq (List.cons_prefix_cons.mpr ⟨rfl, h⟩)
      rw [hsame q hq', readPath_filled]
      rintro rfl
      exact hq' List.nil_prefix
    · rfl

theorem walked_of_walk {p : Platform} {noCreate forbidArray : Bool} : ∀ {parts : List Text}
    {positional positional' : List ℕ} {current current' : Value} {keys : List Text},
    DistinctKeys current →
    walk p noCreate forbidArray parts positional current = .ok (current', some keys, positional') →
    Walked keys current current' := by
  intro parts
  induction parts with
  | nil =>
    intro positional positional' current current' keys hv h
    cases h
    exact ⟨hv, trivial, trivial, fun q _ => rfl⟩
  | cons part parts ih =>
    intro positional positional' current current' keys hv h
    obtain ⟨key, rest, -, hlength, -, ⟨-, hnone, -⟩ | ⟨child, keys', hwalk, hset, hkeys⟩⟩ := walk_cons h
    · cases hnone
    · obtain ⟨ks, rfl, rfl⟩ := Option.map_eq_some_iff.mp hkeys.symm
      have hchild := ih (distinctKeys_filled (distinctKeys_member key hv)) hwalk
      have hwalkable := walkable_of_filled hchild.walkable
      refine ⟨distinctKeys_setKey hchild.distinct hv hset, ⟨hlength, hwalkable⟩,
        ⟨isArray_setKey hset ▸ hlength, ?_⟩, fun q hq => ?_⟩
      · rw [member_setKey hv hlength hset]
        split
        · exact hchild.walkable'
        · exact hwalkable
      · exact readPath_setKey_of_same hv hlength hset hchild.same hq

theorem keyOf_of_ne {part key : Text} {positional rest : List ℕ} (hpart : part ≠ js "$")
    (h : keyOf part positional = .ok (key, rest)) : key = part := by
  unfold keyOf at h
  rw [if_neg hpart] at h
  cases h
  rfl

/-- Without positions, the keys of a walk are the parts of the path. -/
theorem keys_of_walk {p : Platform} {noCreate forbidArray : Bool} : ∀ {parts : List Text}
    {positional positional' : List ℕ} {current current' : Value} {keys : List Text}, js "$" ∉ parts →
    walk p noCreate forbidArray parts positional current = .ok (current', some keys, positional') →
    keys = parts := by
  intro parts
  induction parts with
  | nil =>
    intro positional positional' current current' keys _ h
    cases h
    rfl
  | cons part parts ih =>
    intro positional positional' current current' keys hparts h
    obtain ⟨key, rest, hkey, -, -, ⟨-, hnone, -⟩ | ⟨child, keys', hwalk, -, hkeys⟩⟩ := walk_cons h
    · cases hnone
    · obtain ⟨ks, rfl, rfl⟩ := Option.map_eq_some_iff.mp hkeys.symm
      have hpart : part ≠ js "$" := fun heq => hparts (heq ▸ List.mem_cons_self)
      rw [keyOf_of_ne hpart hkey, ih (fun hmem => hparts (List.mem_cons_of_mem _ hmem)) hwalk]

/-- A walk that stops early puts back what it came through. -/
theorem same_of_walk_none {p : Platform} {noCreate forbidArray : Bool} : ∀ {parts : List Text}
    {positional positional' : List ℕ} {current current' : Value}, js "$" ∉ parts →
    DistinctKeys current →
    walk p noCreate forbidArray parts positional current = .ok (current', none, positional') →
    DistinctKeys current' ∧ ∀ q, ¬q <+: parts → readPath q current' = readPath q current := by
  intro parts
  induction parts with
  | nil =>
    intro positional positional' current current' _ hv h
    cases h
  | cons part parts ih =>
    intro positional positional' current current' hparts hv h
    obtain ⟨key, rest, hkey, hlength, -, ⟨rfl, -, -⟩ | ⟨child, keys', hwalk, hset, hkeys⟩⟩ := walk_cons h
    · exact ⟨hv, fun q _ => rfl⟩
    · obtain rfl := Option.map_eq_none_iff.mp hkeys.symm
      have hpart : part ≠ js "$" := fun heq => hparts (heq ▸ List.mem_cons_self)
      obtain rfl := keyOf_of_ne hpart hkey
      have hchild := ih (fun hmem => hparts (List.mem_cons_of_mem _ hmem))
        (distinctKeys_filled (distinctKeys_member key hv)) hwalk
      exact ⟨distinctKeys_setKey hchild.1 hv hset,
        fun q hq => readPath_setKey_of_same hv hlength hset hchild.2 hq⟩

/-- A container created on the way is the end of the walk, or is entered further on. -/
theorem placed_iff_of_walk {p : Platform} {noCreate forbidArray : Bool} {P : Value → Prop} :
    ∀ {parts : List Text} {positional positional' : List ℕ} {current current' : Value}
    {keys : List Text}, DistinctKeys current →
    walk p noCreate forbidArray parts positional current = .ok (current', some keys, positional') →
    (Placed P parts keys current ↔ Reached keys current' ∧ P (readPath keys current')) := by
  intro parts
  induction parts with
  | nil =>
    intro positional positional' current current' keys _ h
    cases h
    exact ⟨fun hP => ⟨trivial, hP⟩, fun hP => hP.2⟩
  | cons part parts ih =>
    intro positional positional' current current' keys hv h
    obtain ⟨key, rest, -, hlength, -, ⟨-, hnone, -⟩ | ⟨child, keys', hwalk, hset, hkeys⟩⟩ := walk_cons h
    · cases hnone
    · obtain ⟨ks, rfl, rfl⟩ := Option.map_eq_some_iff.mp hkeys.symm
      have hchild := ih (distinctKeys_filled (distinctKeys_member key hv)) hwalk
      rw [Placed, Reached, readPath, hchild, enters_setKey hset, and_assoc]
      refine and_congr_right fun henters => ?_
      rw [member_setKey hv hlength hset, if_pos ⟨rfl, henters⟩]

/-- The keys that the parts of a path stand for, and the positions that are left. -/
def resolve : List Text → List ℕ → Except Text (List Text × List ℕ)
  | [], positional => .ok ([], positional)
  | part :: parts, positional => do
    let (key, positional) ← keyOf part positional
    let (keys, positional) ← resolve parts positional
    .ok (key :: keys, positional)

theorem resolve_of_walk {p : Platform} {noCreate forbidArray : Bool} : ∀ {parts : List Text}
    {positional positional' : List ℕ} {current current' : Value} {keys : List Text},
    walk p noCreate forbidArray parts positional current = .ok (current', some keys, positional') →
    resolve parts positional = .ok (keys, positional') := by
  intro parts
  induction parts with
  | nil =>
    intro positional positional' current current' keys h
    cases h
    rfl
  | cons part parts ih =>
    intro positional positional' current current' keys h
    obtain ⟨key, rest, hkey, -, -, ⟨-, hnone, -⟩ | ⟨child, keys', hwalk, -, hkeys⟩⟩ := walk_cons h
    · cases hnone
    · obtain ⟨ks, rfl, rfl⟩ := Option.map_eq_some_iff.mp hkeys.symm
      rw [resolve, hkey]
      change (do let r ← resolve parts rest; .ok (key :: r.1, r.2) : Except Text (List Text × List ℕ)) = _
      rw [ih hwalk]
      rfl

theorem resolve_append {parts parts' : List Text} {positional positional' : List ℕ} {keys : List Text}
    (h : resolve parts positional = .ok (keys, positional')) :
    resolve (parts ++ parts') positional = (resolve parts' positional').map fun r => (keys ++ r.1, r.2) := by
  induction parts generalizing positional keys with
  | nil =>
    cases h
    rw [List.nil_append]
    cases resolve parts' positional' <;> rfl
  | cons part parts ih =>
    obtain ⟨⟨key, rest⟩, hkey, h⟩ := bind_eq_ok h
    obtain ⟨⟨ks, rest'⟩, hks, h⟩ := bind_eq_ok h
    cases h
    rw [List.cons_append, resolve, hkey]
    change (do let r ← resolve (parts ++ parts') rest; .ok (key :: r.1, r.2) :
      Except Text (List Text × List ℕ)) = _
    rw [ih hks]
    cases resolve parts' positional' <;> rfl

/-- What the walk finds or creates at the end of the keys. -/
theorem readPath_end_of_walk {p : Platform} {noCreate forbidArray : Bool} : ∀ {parts : List Text}
    {positional positional' : List ℕ} {current current' : Value} {keys : List Text},
    DistinctKeys current →
    walk p noCreate forbidArray parts positional current = .ok (current', some keys, positional') →
    readPath keys current' = readPath keys current ∨
      readPath keys current' = filled [] (readPath keys current) := by
  intro parts
  induction parts with
  | nil =>
    intro positional positional' current current' keys _ h
    cases h
    exact .inl rfl
  | cons part parts ih =>
    intro positional positional' current current' keys hv h
    obtain ⟨key, rest, -, hlength, -, ⟨-, hnone, -⟩ | ⟨child, keys', hwalk, hset, hkeys⟩⟩ := walk_cons h
    · cases hnone
    · obtain ⟨ks, rfl, rfl⟩ := Option.map_eq_some_iff.mp hkeys.symm
      rw [readPath, readPath, member_setKey hv hlength hset]
      split
      · cases parts with
        | nil =>
          cases hwalk
          exact .inr rfl
        | cons part' parts' =>
          have hne : ks ≠ [] := by
            rintro rfl
            obtain ⟨k, -, -, -, -, ⟨-, hnone, -⟩ | ⟨-, ks', -, -, hks⟩⟩ := walk_cons hwalk
            · cases hnone
            · obtain ⟨_, _, h⟩ := Option.map_eq_some_iff.mp hks.symm
              cases h
          have hend := ih (distinctKeys_filled (distinctKeys_member key hv)) hwalk
          rwa [readPath_filled hne] at hend
      · exact .inl rfl

theorem filled_nil_eq_arr {v : Value} {xs : List Value} : filled [] v = .arr xs ↔ v = .arr xs := by
  cases v <;> simp [filled]

theorem readPath_end_eq_arr {p : Platform} {noCreate forbidArray : Bool} {parts : List Text}
    {positional positional' : List ℕ} {current current' : Value} {keys : List Text} {xs : List Value}
    (hv : DistinctKeys current)
    (h : walk p noCreate forbidArray parts positional current = .ok (current', some keys, positional')) :
    readPath keys current' = .arr xs ↔ readPath keys current = .arr xs := by
  rcases readPath_end_of_walk hv h with heq | heq
  · rw [heq]
  · rw [heq, filled_nil_eq_arr]

/-- Without positions, the parts have no `$`. -/
theorem no_dollar_of_resolve {parts keys : List Text} {positional : List ℕ}
    (h : resolve parts [] = .ok (keys, positional)) : js "$" ∉ parts ∧ positional = [] := by
  induction parts generalizing keys with
  | nil =>
    cases h
    exact ⟨List.not_mem_nil, rfl⟩
  | cons part parts ih =>
    obtain ⟨⟨key, rest⟩, hkey, h⟩ := bind_eq_ok h
    obtain ⟨⟨ks, rest'⟩, hks, h⟩ := bind_eq_ok h
    cases h
    unfold keyOf at hkey
    split at hkey
    · cases hkey
    · next hpart =>
      cases hkey
      obtain ⟨hparts, rfl⟩ := ih hks
      refine ⟨fun hmem => ?_, rfl⟩
      rcases List.mem_cons.mp hmem with heq | hmem
      · exact hpart heq.symm
      · exact hparts hmem

/-- A walk that creates what is missing ends somewhere. -/
theorem isSome_of_walk {p : Platform} {forbidArray : Bool} : ∀ {parts : List Text}
    {positional positional' : List ℕ} {current current' : Value} {keys : Option (List Text)},
    walk p false forbidArray parts positional current = .ok (current', keys, positional') → keys.isSome := by
  intro parts
  induction parts with
  | nil =>
    intro positional positional' current current' keys h
    cases h
    rfl
  | cons part parts ih =>
    intro positional positional' current current' keys h
    obtain ⟨key, rest, -, -, -, ⟨-, -, hno, -⟩ | ⟨child, keys', hwalk, -, rfl⟩⟩ := walk_cons h
    · cases hno
    · rw [Option.isSome_map]
      exact ih hwalk

/-- A walk that stops early has no container before it. -/
theorem container_of_walk_none {p : Platform} {noCreate forbidArray : Bool} : ∀ {parts : List Text}
    {positional positional' : List ℕ} {current current' : Value}, js "$" ∉ parts →
    walk p noCreate forbidArray parts positional current = .ok (current', none, positional') →
    isPlainObject (readPath parts current) = false ∧ isArray (readPath parts current) = false := by
  intro parts
  induction parts with
  | nil =>
    intro positional positional' current current' _ h
    cases h
  | cons part parts ih =>
    intro positional positional' current current' hparts h
    obtain ⟨key, rest, hkey, -, -, ⟨-, -, -, hobj, harr⟩ | ⟨child, keys', hwalk, -, hkeys⟩⟩ := walk_cons h
    all_goals
      have hpart : part ≠ js "$" := fun heq => hparts (heq ▸ List.mem_cons_self)
      obtain rfl := keyOf_of_ne hpart hkey
      rw [readPath]
    · cases parts with
      | nil => exact ⟨hobj, harr⟩
      | cons part' parts' =>
        rw [readPath_of_member (fun k => ?_) (List.cons_ne_nil _ _)]
        · exact ⟨rfl, rfl⟩
        · cases hm : member current key with
          | obj ms => rw [hm] at hobj; cases hobj
          | arr xs => rw [hm] at harr; cases harr
          | _ => rfl
    · obtain rfl := Option.map_eq_none_iff.mp hkeys.symm
      have hrest := ih (fun hmem => hparts (List.mem_cons_of_mem _ hmem)) hwalk
      cases parts with
      | nil => cases hwalk
      | cons part' parts' => rwa [readPath_filled (List.cons_ne_nil _ _)] at hrest

/-- Every key on the way to something is one that writing reaches, but for `__proto__`. -/
theorem reached_of_ne {keys : List Text} (hproto : js "__proto__" ∉ keys) {v : Value}
    (h : readPath keys v ≠ .undefined) : Reached keys v := by
  induction keys generalizing v with
  | nil => trivial
  | cons key keys ih =>
    rw [readPath] at h
    refine ⟨?_, ih (fun hmem => hproto (List.mem_cons_of_mem _ hmem)) h⟩
    have hmember : member v key ≠ .undefined := by
      intro heq
      rw [heq, readPath_undefined] at h
      exact h rfl
    cases v with
    | obj ms => exact decide_eq_true fun heq => hproto (heq ▸ List.mem_cons_self)
    | arr xs =>
      rw [enters]
      cases hkey : arrayKey? key with
      | none => exact absurd (by rw [member, hkey]; rfl) hmember
      | some i => rfl
    | _ => exact absurd rfl hmember

/-! ## Walks that refuse arrays -/

def arrayLength? : Value → Option ℕ
  | .arr xs => some xs.length
  | _ => none

theorem arrayLength?_eq_none {v : Value} : arrayLength? v = none ↔ isArray v = false := by
  cases v <;> simp [arrayLength?, isArray]

/-- Such a walk comes through objects, and the arrays of the document keep their lengths. -/
theorem lengths_of_walk {p : Platform} {noCreate : Bool} : ∀ {parts : List Text}
    {positional positional' : List ℕ} {current current' : Value} {keys : List Text},
    DistinctKeys current →
    walk p noCreate true parts positional current = .ok (current', some keys, positional') →
    (∀ q, q <+: keys → q ≠ keys → isArray (readPath q current) = false) ∧
      ∀ q, arrayLength? (readPath q current') = arrayLength? (readPath q current) := by
  intro parts
  induction parts with
  | nil =>
    intro positional positional' current current' keys _ h
    cases h
    exact ⟨fun q hq hne => absurd (List.prefix_nil.mp hq) hne, fun q => rfl⟩
  | cons part parts ih =>
    intro positional positional' current current' keys hv h
    obtain ⟨key, rest, -, hlength, hforbid, ⟨-, hnone, -⟩ | ⟨child, keys', hwalk, hset, hkeys⟩⟩ := walk_cons h
    · cases hnone
    · obtain ⟨ks, rfl, rfl⟩ := Option.map_eq_some_iff.mp hkeys.symm
      obtain ⟨hobjects, hlengths⟩ := ih (distinctKeys_filled (distinctKeys_member key hv)) hwalk
      have hnot : isArray current = false := Bool.eq_false_iff.mpr (hforbid rfl)
      -- An array created here would be refused by the next step.
      have hfilled : ∀ q, arrayLength? (readPath q (filled parts (member current key))) =
          arrayLength? (readPath q (member current key)) := by
        intro q
        by_cases hq : q = []
        · rw [hq, readPath, readPath]
          cases parts with
          | nil => cases member current key <;> rfl
          | cons part' parts' =>
            obtain ⟨-, -, -, -, hforbid', -⟩ := walk_cons hwalk
            have hchild := Bool.eq_false_iff.mpr (hforbid' rfl)
            rw [arrayLength?_eq_none.mpr hchild]
            cases hm : member current key with
            | arr xs => rw [hm] at hchild; cases hchild
            | _ => rfl
        · rw [readPath_filled hq]
      constructor
      · intro q hq hne
        cases q with
        | nil => exact hnot
        | cons k q =>
          obtain ⟨rfl, hq'⟩ := List.cons_prefix_cons.mp hq
          have hchild := arrayLength?_eq_none.mpr (hobjects q hq' fun heq => hne (heq ▸ rfl))
          rw [hfilled] at hchild
          exact arrayLength?_eq_none.mp hchild
      · intro q
        cases q with
        | nil =>
          rw [readPath, readPath, arrayLength?_eq_none.mpr hnot,
            arrayLength?_eq_none.mpr ((isArray_setKey hset).trans hnot)]
        | cons k q =>
          rw [readPath, readPath, member_setKey hv hlength hset]
          split
          · next hk => rw [hlengths, hfilled, hk.1]
          · rfl

/-! ## Putting back along the keys -/

theorem valueAt_eq {keys : List Text} {v : Value} (h : Walkable keys v) :
    valueAt keys v = readPath keys v := by
  induction keys generalizing v with
  | nil => rfl
  | cons key keys ih => rw [valueAt, readPath, getKey_eq_member h.1, ih h.2]

/-- What `f`, done to the end of the keys, leaves. -/
structure Updated (f : Value → Except Text Value) (keys : List Text) (v v' : Value) : Prop where
  same : ∀ q, Apart q keys → readPath q v' = readPath q v
  changed : ∃ x, f (readPath keys v) = .ok x ∧
    (∀ r, readPath (keys ++ r) v' = readPath r x ∨ readPath (keys ++ r) v' = readPath (keys ++ r) v) ∧
    (Reached keys v → ∀ r, readPath (keys ++ r) v' = readPath r x)

theorem updated_of_updateAt {p : Platform} {f : Value → Except Text Value} :
    ∀ {keys : List Text} {v v' : Value}, DistinctKeys v → Walkable keys v →
      updateAt p f keys v = .ok v' → Updated f keys v v' := by
  intro keys
  induction keys with
  | nil =>
    intro v v' _ _ h
    exact ⟨fun q hq => absurd List.nil_prefix hq.2, v', h, fun r => .inl rfl, fun _ r => rfl⟩
  | cons key keys ih =>
    intro v v' hv hwalkable h
    obtain ⟨child, hchild, hset⟩ := bind_eq_ok h
    rw [getKey_eq_member hwalkable.1] at hchild
    obtain ⟨hsame, x, hx, hchanged, hreached⟩ := ih (distinctKeys_member key hv) hwalkable.2 hchild
    have hmember := member_setKey hv hwalkable.1 hset
    refine ⟨fun q hq => ?_, x, hx, fun r => ?_, fun hr r => ?_⟩
    · cases q with
      | nil => exact absurd List.nil_prefix hq.1
      | cons k q =>
        rw [readPath, readPath, hmember]
        split
        · next hk =>
          obtain ⟨rfl, -⟩ := hk
          exact hsame q ⟨fun h => hq.1 (List.cons_prefix_cons.mpr ⟨rfl, h⟩),
            fun h => hq.2 (List.cons_prefix_cons.mpr ⟨rfl, h⟩)⟩
        · rfl
    · rw [List.cons_append, readPath, readPath, hmember]
      split
      · exact hchanged r
      · exact .inr rfl
    · rw [List.cons_append, readPath, hmember, if_pos ⟨rfl, hr.1⟩]
      exact hreached hr.2 r

/-- Putting back makes no array of an object, and no object of an array. -/
theorem isArray_updateAt {p : Platform} {f : Value → Except Text Value} :
    ∀ {keys q : List Text} {v v' : Value}, DistinctKeys v → Walkable keys v → q <+: keys → q ≠ keys →
      updateAt p f keys v = .ok v' → isArray (readPath q v') = isArray (readPath q v) := by
  intro keys
  induction keys with
  | nil =>
    intro q v v' _ _ hq hne
    exact absurd (List.prefix_nil.mp hq) hne
  | cons key keys ih =>
    intro q v v' hv hwalkable hq hne h
    obtain ⟨child, hchild, hset⟩ := bind_eq_ok h
    rw [getKey_eq_member hwalkable.1] at hchild
    cases q with
    | nil => exact isArray_setKey hset
    | cons k q =>
      obtain ⟨rfl, hq'⟩ := List.cons_prefix_cons.mp hq
      rw [readPath, readPath, member_setKey hv hwalkable.1 hset]
      split
      · exact ih (distinctKeys_member k hv) hwalkable.2 hq' (fun heq => hne (heq ▸ rfl)) hchild
      · rfl

theorem distinctKeys_updateAt {p : Platform} {f : Value → Except Text Value}
    (hf : ∀ {w w' : Value}, DistinctKeys w → f w = .ok w' → DistinctKeys w') :
    ∀ {keys : List Text} {v v' : Value}, DistinctKeys v → updateAt p f keys v = .ok v' → DistinctKeys v' := by
  intro keys
  induction keys with
  | nil =>
    intro v v' hv h
    exact hf hv h
  | cons key keys ih =>
    intro v v' hv h
    obtain ⟨child, hchild, hset⟩ := bind_eq_ok h
    exact distinctKeys_setKey (ih (distinctKeys_getKey key hv) hchild) hv hset

/-- What is read at the field after a write of it. -/
theorem readPath_set {p : Platform} {field : Text} {x : Value} :
    ∀ {keys : List Text} {v v' : Value}, DistinctKeys v → Walkable keys v →
      (isArray (readPath keys v) → field ≠ js "length") → updateAt p (setKey p field x) keys v = .ok v' →
      ∀ r, (Reached keys v ∧ enters (readPath keys v) field → readPath (keys ++ field :: r) v' = readPath r x) ∧
        (¬(Reached keys v ∧ enters (readPath keys v) field) →
          readPath (keys ++ field :: r) v' = readPath (keys ++ field :: r) v) := by
  intro keys
  induction keys with
  | nil =>
    intro v v' hv _ hlength h r
    change (_ → readPath r (member v' field) = _) ∧ (_ → readPath r (member v' field) = readPath r (member v field))
    rw [member_setKey hv hlength h]
    constructor
    · intro henters
      rw [if_pos ⟨rfl, henters.2⟩]
    · intro hnot
      rw [if_neg fun h => hnot ⟨trivial, h.2⟩]
  | cons key keys ih =>
    intro v v' hv hwalkable hlength h r
    obtain ⟨child, hchild, hset⟩ := bind_eq_ok h
    rw [getKey_eq_member hwalkable.1] at hchild
    obtain ⟨hreached, hlost⟩ := ih (distinctKeys_member key hv) hwalkable.2 hlength hchild r
    change (_ → readPath (keys ++ field :: r) (member v' key) = _) ∧
      (_ → readPath (keys ++ field :: r) (member v' key) = readPath (keys ++ field :: r) (member v key))
    rw [member_setKey hv hwalkable.1 hset]
    constructor
    · rintro ⟨⟨henters, hrest⟩, hfield⟩
      rw [if_pos ⟨rfl, henters⟩]
      exact hreached ⟨hrest, hfield⟩
    · intro hnot
      split
      · next henters => exact hlost fun h => hnot ⟨⟨henters.2, h.1⟩, h.2⟩
      · rfl

/-- A target that is created where it is missing. -/
theorem modificationTarget_iff {p : Platform} {arrayIndices : Option (List ArrayStep)}
    {forbidArray : Bool} {document document' : Value} {path : Text} {target : Target} :
    modificationTarget p arrayIndices false forbidArray document path = .ok (document', target) ↔
      fieldOf path ≠ [] ∧ ∃ keys positional rest,
        walk p false forbidArray (splitPath path).dropLast (positions arrayIndices) document =
          .ok (document', some keys, positional) ∧
        keyOf (fieldOf path) positional = .ok (target.field, rest) ∧ target.parent = some keys := by
  unfold modificationTarget
  rw [← fieldOf]
  dsimp only
  constructor
  · intro h
    split at h
    · cases h
    · next hfield =>
      obtain ⟨⟨document₁, keys, positional⟩, hwalk, h⟩ := bind_eq_ok h
      obtain ⟨keys, rfl⟩ := Option.isSome_iff_exists.mp (isSome_of_walk hwalk)
      obtain ⟨⟨field, rest⟩, hkey, h⟩ := bind_eq_ok h
      cases h
      exact ⟨hfield, keys, positional, rest, hwalk, hkey, rfl⟩
  · rintro ⟨hfield, keys, positional, rest, hwalk, hkey, hparent⟩
    obtain ⟨parent, field⟩ := target
    obtain rfl : parent = some keys := hparent
    rw [if_neg hfield, hwalk]
    dsimp only [bind, Except.bind]
    rw [if_neg (by simp), hkey]

end TypeFerry.Minimongo.Places
