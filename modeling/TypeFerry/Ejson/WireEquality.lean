import TypeFerry.Ejson.Canonical
import TypeFerry.Ejson.RoundTrip

/-! # Equality and canonical text

`EJSON.equals` and the canonical text are two recursions over the same trees.
`agree` says by recursion what either of them compares: with `clashes` set, it
takes two values of different kinds that have the same own entries for equal, and
two regular expressions of any pattern; without, it does not. The comparison is
the one (`equals_eq_agree`), the equality of texts the other
(`text_eq_iff_agree`). -/
namespace TypeFerry.Ejson.WireEquality
open TypeFerry.Lib.Numeral TypeFerry.Lib.JsonText TypeFerry.Ejson.Clone TypeFerry.Ejson.Base64
open TypeFerry.Ejson.Convert TypeFerry.Ejson.Encode TypeFerry.Ejson.Equals TypeFerry.Ejson.Canonical
open TypeFerry.Ejson.RoundTrip

/-! ## Agreement -/

/-- Two objects that are no arrays and have the same own entries, as far as they
are bytes. -/
def alike (a b : Value) : Bool :=
  isKeyed a && isKeyed b && compareBytes false (ownEntries a) (ownEntries b)

mutual

/-- The two trees have the same values under the same keys, in any order; with `clashes`,
objects of different kinds that are alike count as the same. -/
def agree (clashes : Bool) : Value → Value → Bool
  | .null, .null => true
  | .bool a, .bool b => a == b
  | .num a, .num b => numEquals a b
  | .str a, .str b => a == b
  | .date s, .date t => s == t
  | .regexp r, .regexp s => clashes || decide (r = s)
  | .binary x, .binary y => x == y
  | .arr xs, .arr ys => agreeElems clashes xs ys
  | .obj ms, .obj ns => ms.length == ns.length && agreeMembers clashes ms ns
  | a, b => clashes && alike a b

def agreeElems (clashes : Bool) : List Value → List Value → Bool
  | [], [] => true
  | x :: xs, y :: ys => agree clashes x y && agreeElems clashes xs ys
  | _, _ => false

def agreeMembers (clashes : Bool) : List (Text × Value) → List (Text × Value) → Bool
  | [], _ => true
  | (k, x) :: ms, ns => (match getOwn k ns with
      | some y => agree clashes x y
      | none => false) && agreeMembers clashes ms ns

end

/-! ## The comparison -/

/-- Comparing keys with an object that holds numbers only. -/
theorem compareKeys_numbers {bs : List (Text × Value)} (hb : ∀ m ∈ bs, ∃ n, m.2 = .num n) :
    ∀ as : List (Text × Value), compareKeysUnordered false as bs =
      as.all fun m => ((getOwn m.1 bs).map fun y => match m.2, y with
        | .num m, .num n => numEquals m n
        | _, _ => false).getD false := by
  intro as
  induction as with
  | nil => rfl
  | cons a as ih =>
    obtain ⟨k, x⟩ := a
    rw [compareKeysUnordered, List.all_cons, ih]
    cases hg : getOwn k bs with
    | none => rfl
    | some y =>
      obtain ⟨n, hn⟩ := hb _ (mem_of_getOwn hg)
      rw [show y = .num n from hn]
      cases x <;> rfl

theorem ownEntries_numbers {b : Value} (h : ∀ ns, b ≠ .obj ns) :
    ∀ m ∈ ownEntries b, ∃ n, m.2 = .num n := by
  intro m hm
  cases b with
  | obj ns => exact absurd rfl (h ns)
  | binary bytes =>
    obtain ⟨p, -, rfl⟩ := List.mem_map.mp hm
    exact ⟨_, rfl⟩
  | _ => cases hm

theorem compareBytes_nil (bs : List (Text × Value)) : compareBytes false [] bs = bs.isEmpty := by
  cases bs <;> rfl

/-- An object against one of another kind. -/
theorem equals_obj_other {ms : List (Text × Value)} {b : Value} (h : ∀ ns, b ≠ .obj ns) :
    equals false (.obj ms) b = alike (.obj ms) b := by
  rw [equals, alike, compareKeys_numbers (ownEntries_numbers h) ms]
  rfl

mutual

/-- **What the comparison compares.** -/
theorem equals_eq_agree : ∀ a b : Value, Quiet a → equals false a b = agree true a b
  | .undefined, _, h => h.elim
  | .null, b, _ | .bool _, b, _ | .num _, b, _ | .str _, b, _ => by cases b <;> rfl
  | .date s, b, h => by
    obtain ⟨n, rfl⟩ := Option.isSome_iff_exists.mp h
    cases b with
    | date t => cases t <;> rfl
    | _ => simp only [equals, agree, alike, ownEntries, compareBytes_nil, isKeyed, Bool.true_and]
  | .regexp _, b, _ => by
    cases b <;>
      simp only [equals, agree, alike, ownEntries, compareBytes_nil, isKeyed, Bool.true_and,
        Bool.true_or, List.isEmpty_nil]
  | .binary _, b, _ => by cases b <;> rfl
  | .arr xs, b, h => by
    cases b with
    | arr ys =>
      rw [equals, agree]
      exact areArraysEqual_eq_agree xs ys h
    | _ => rfl
  | .obj ms, b, h => by
    cases b with
    | obj ns =>
      rw [equals, agree, ← compareKeys_eq_agree ms ns h.2.2]
      rfl
    | _ =>
      rw [equals_obj_other (by intro ns h; cases h)]
      rfl

theorem areArraysEqual_eq_agree : ∀ xs ys : List Value, QuietElems xs →
    areArraysEqual false xs ys = agreeElems true xs ys
  | [], ys, _ => by cases ys <;> rfl
  | x :: xs, ys, h => by
    cases ys with
    | nil => rfl
    | cons y ys =>
      rw [areArraysEqual, agreeElems, equals_eq_agree x y h.1, areArraysEqual_eq_agree xs ys h.2]

theorem compareKeys_eq_agree : ∀ ms ns : List (Text × Value), QuietMembers ms →
    compareKeysUnordered false ms ns = agreeMembers true ms ns
  | [], _, _ => rfl
  | (k, x) :: ms, ns, h => by
    rw [compareKeysUnordered, agreeMembers, compareKeys_eq_agree ms ns h.2]
    cases getOwn k ns with
    | none => rfl
    | some y => simp only [equals_eq_agree x y h.1]

end

/-! ## The form that is written -/

mutual

/-- A value with its negative zeros dropped. -/
def zeroed : Value → Value
  | .num (.finite d) => .num (.finite d.dropNegZero)
  | .arr xs => .arr (zeroedElems xs)
  | .obj ms => .obj (zeroedMembers ms)
  | v => v

def zeroedElems : List Value → List Value
  | [] => []
  | x :: xs => zeroed x :: zeroedElems xs

def zeroedMembers : List (Text × Value) → List (Text × Value)
  | [] => []
  | (k, v) :: ms => (k, zeroed v) :: zeroedMembers ms

end

/-- What the canonical text is the text of. -/
def wire (v : Value) : Value := zeroed (sortJsonValue (encode v))

theorem zeroedMembers_eq (ms : List (Text × Value)) : zeroedMembers ms = ms.map fun m => (m.1, zeroed m.2) := by
  induction ms with
  | nil => rfl
  | cons m ms ih => rw [zeroedMembers, ih, List.map_cons]

theorem sortMembers_eq (ms : List (Text × Value)) : sortMembers ms = ms.map fun m => (m.1, sortJsonValue m.2) := by
  induction ms with
  | nil => rfl
  | cons m ms ih => rw [sortMembers, ih, List.map_cons]

theorem zeroed_defined (v : Value) (h : v.isUndefined = false) : (zeroed v).isUndefined = false := by
  cases v with
  | num n => cases n <;> rfl
  | _ => first | rfl | cases h

theorem sortJsonValue_defined (v : Value) (h : v.isUndefined = false) :
    (sortJsonValue v).isUndefined = false := by
  cases v <;> first | rfl | cases h

theorem encode_defined {v : Value} (h : Quiet v) : (encode v).isUndefined = false := by
  cases v with
  | undefined => exact h.elim
  | num n => cases n <;> rfl
  | obj ms =>
    rw [encode]
    split <;> rfl
  | _ => rfl

/-- The members of a quiet object, each as it is written. -/
def wireMembers (ms : List (Text × Value)) : List (Text × Value) := ms.map fun m => (m.1, wire m.2)

theorem wireMembers_keys (ms : List (Text × Value)) :
    (wireMembers ms).map Prod.fst = ms.map Prod.fst := by
  rw [wireMembers, List.map_map]
  rfl

theorem settable_mapped {f : Value → Value} {ms : List (Text × Value)} (h : Quiet (.obj ms))
    (hf : ∀ v, Quiet v → (f v).isUndefined = false) :
    Settable (ms.map fun m => (m.1, f m.2)) := by
  obtain ⟨hn, hfor, hq⟩ := h
  have hkeys : (ms.map fun m => (m.1, f m.2)).map Prod.fst = ms.map Prod.fst := by
    rw [List.map_map]
    rfl
  refine ⟨hkeys ▸ hn, hkeys ▸ (isForeign_eq_false.mp hfor).2, ?_⟩
  intro m hm
  obtain ⟨m', hm', rfl⟩ := List.mem_map.mp hm
  exact hf _ (quiet_of_mem hq m' hm')

theorem settable_wire {ms : List (Text × Value)} (h : Quiet (.obj ms)) : Settable (wireMembers ms) :=
  settable_mapped h fun _ hv => zeroed_defined _ (sortJsonValue_defined _ (encode_defined hv))

/-- The members of an object are written in canonical order. -/
theorem zeroed_rebuild {ms : List (Text × Value)} (h : Quiet (.obj ms)) :
    zeroedMembers (rebuild (sortMembers (encodeMembers ms))) = rebuild (wireMembers ms) := by
  have hs : Settable (ms.map fun m => (m.1, sortJsonValue (encode m.2))) :=
    settable_mapped h fun _ hv => sortJsonValue_defined _ (encode_defined hv)
  have heq : sortMembers (encodeMembers ms) = ms.map fun m => (m.1, sortJsonValue (encode m.2)) := by
    rw [sortMembers_eq, encodeMembers_eq, List.map_map]
    rfl
  rw [zeroedMembers_eq, heq, ← rebuild_map zeroed_defined hs, List.map_map]
  rfl

/-- An object of one member has one order. -/
theorem rebuild_single {k : Text} {v : Value} (hk : k ≠ js "__proto__") (hv : v.isUndefined = false) :
    rebuild [(k, v)] = [(k, v)] := by
  refine List.perm_singleton.mp (rebuild_perm ⟨List.nodup_singleton _, ?_, ?_⟩)
  · intro h
    exact hk (List.mem_singleton.mp h).symm
  · intro m hm
    rw [List.mem_singleton.mp hm]
    exact hv

theorem wire_obj {ms : List (Text × Value)} (h : Quiet (.obj ms)) : wire (.obj ms) =
    if tagged ms then .obj [(js "$escape", .obj (rebuild (wireMembers ms)))]
    else .obj (rebuild (wireMembers ms)) := by
  rw [wire, encode]
  split
  · rw [sortJsonValue, sortMembers, sortMembers, rebuild_single (by decide) rfl, zeroed, zeroedMembers,
      zeroedMembers, sortJsonValue, zeroed, zeroed_rebuild h]
  · rw [sortJsonValue, zeroed, zeroed_rebuild h]

/-! ## Texts -/

mutual

theorem toJson?_ofJson : ∀ j : Json, toJson? (ofJson j) = some j
  | .null | .bool _ | .num _ | .str _ => rfl
  | .arr xs => by rw [ofJson, toJson?, toJsonElems?_ofJson xs, Option.map_some]
  | .obj ms => by rw [ofJson, toJson?, toJsonMembers?_ofJson ms, Option.map_some]

theorem toJsonElems?_ofJson : ∀ xs : List Json, toJsonElems? (ofJsonElems xs) = some xs
  | [] => rfl
  | x :: xs => by
    simp only [ofJsonElems, toJsonElems?, toJson?_ofJson x, toJsonElems?_ofJson xs]
    rfl

theorem toJsonMembers?_ofJson : ∀ ms : List (Text × Json), toJsonMembers? (ofJsonMembers ms) = some ms
  | [] => rfl
  | (k, v) :: ms => by
    simp only [ofJsonMembers, toJsonMembers?, toJson?_ofJson v, toJsonMembers?_ofJson ms]
    rfl

end

theorem ofJson_inj {j j' : Json} : ofJson j = ofJson j' ↔ j = j' := by
  constructor
  · intro h
    have := congrArg toJson? h
    rw [toJson?_ofJson, toJson?_ofJson] at this
    exact Option.some.inj this
  · intro h
    rw [h]

mutual

theorem ofJson_dropNegZero : ∀ j : Json, ofJson (dropNegZero j) = zeroed (ofJson j)
  | .null | .bool _ | .num _ | .str _ => rfl
  | .arr xs => by rw [dropNegZero, ofJson, ofJson, zeroed, ofJsonElems_dropNegZero xs]
  | .obj ms => by rw [dropNegZero, ofJson, ofJson, zeroed, ofJsonMembers_dropNegZero ms]

theorem ofJsonElems_dropNegZero : ∀ xs : List Json,
    ofJsonElems (dropNegZeroElems xs) = zeroedElems (ofJsonElems xs)
  | [] => rfl
  | x :: xs => by
    rw [dropNegZeroElems, ofJsonElems, ofJsonElems, zeroedElems, ofJson_dropNegZero x,
      ofJsonElems_dropNegZero xs]

theorem ofJsonMembers_dropNegZero : ∀ ms : List (Text × Json),
    ofJsonMembers (dropNegZeroMembers ms) = zeroedMembers (ofJsonMembers ms)
  | [] => rfl
  | (k, v) :: ms => by
    rw [dropNegZeroMembers, ofJsonMembers, ofJsonMembers, zeroedMembers, ofJson_dropNegZero v,
      ofJsonMembers_dropNegZero ms]

end

/-- Members that are JSON are the members of a JSON object. -/
theorem members_json : ∀ {ms : List (Text × Value)}, (∀ m ∈ ms, ∃ j, ofJson j = m.2 ∧ WF j) →
    ∃ js', ofJsonMembers js' = ms ∧ js'.map Prod.fst = ms.map Prod.fst ∧ WFMembers js'
  | [], _ => ⟨[], rfl, rfl, trivial⟩
  | (k, v) :: ms, h => by
    obtain ⟨j, hj, hw⟩ := h (k, v) (List.mem_cons_self ..)
    obtain ⟨js', hjs, hk, hws⟩ := members_json fun m hm => h m (List.mem_cons_of_mem _ hm)
    refine ⟨(k, j) :: js', ?_, ?_, hw, hws⟩
    · rw [ofJsonMembers, hj, hjs]
    · rw [List.map_cons, List.map_cons, hk]

theorem rebuilt_json {ms : List (Text × Value)} (h : Settable ms)
    (hm : ∀ m ∈ ms, ∃ j, ofJson j = m.2 ∧ WF j) : ∃ j, ofJson j = .obj (rebuild ms) ∧ WF j := by
  have hp := rebuild_perm h
  obtain ⟨js', hjs, hk, hw⟩ := members_json fun m hin => hm m (hp.mem_iff.mp hin)
  refine ⟨.obj js', by rw [ofJson, hjs], ?_, hw⟩
  rw [hk]
  exact (h.perm hp.symm).keys

/-- A tag of one key. -/
theorem single_json {k : Text} {j : Json} (hk : k ≠ js "__proto__") (hw : WF j)
    (hv : sortJsonValue (ofJson j) = ofJson j) :
    ∃ j', ofJson j' = sortJsonValue (.obj [(k, ofJson j)]) ∧ WF j' := by
  refine ⟨.obj [(k, j)], ?_, List.nodup_singleton _, hw, trivial⟩
  have hdef : (ofJson j).isUndefined = false := by cases j <;> rfl
  rw [sortJsonValue, sortMembers, sortMembers, hv, rebuild_single hk hdef]
  rfl

theorem settable_regexp (source flags : Text) :
    Settable [(js "$regexp", .str source), (js "$flags", .str flags)] where
  keys := show [js "$regexp", js "$flags"].Nodup by decide
  proto := show js "__proto__" ∉ [js "$regexp", js "$flags"] by decide
  defined m hm := by
    rcases List.mem_cons.mp hm with rfl | hm
    · rfl
    · rw [List.mem_singleton.mp hm]
      rfl

mutual

/-- What is written is well-formed JSON. -/
theorem sorted_json : ∀ v : Value, Quiet v → ∃ j, ofJson j = sortJsonValue (encode v) ∧ WF j
  | .undefined, h => h.elim
  | .null, _ => ⟨.null, rfl, trivial⟩
  | .bool b, _ => ⟨.bool b, rfl, trivial⟩
  | .num (.finite d), _ => ⟨.num d, rfl, trivial⟩
  | .str s, _ => ⟨.str s, rfl, trivial⟩
  | .num .nan, _ => @single_json (js "$InfNaN") (.num (ofInt 0)) (by decide) trivial rfl
  | .num (.infinity neg), _ =>
    @single_json (js "$InfNaN") (.num (ofInt (if neg then -1 else 1))) (by decide) trivial rfl
  | .date t, h => by
    obtain ⟨n, rfl⟩ := Option.isSome_iff_exists.mp h
    exact @single_json (js "$date") (.num (ofInt n)) (by decide) trivial rfl
  | .binary b, _ => @single_json (js "$binary") (.str (encodeBase64 b)) (by decide) trivial rfl
  | .regexp r, _ => by
    refine rebuilt_json (settable_regexp r.source r.flags) fun m hm => ?_
    rcases List.mem_cons.mp hm with rfl | hm
    · exact ⟨.str r.source, rfl, trivial⟩
    · rw [List.mem_singleton.mp hm]
      exact ⟨.str r.flags, rfl, trivial⟩
  | .arr xs, h => by
    obtain ⟨js', hjs, hw⟩ := sortedElems_json xs h
    exact ⟨.arr js', by rw [ofJson, hjs, encode, sortJsonValue], hw⟩
  | .obj ms, h => by
    have hs : Settable (sortMembers (encodeMembers ms)) := by
      rw [sortMembers_eq, encodeMembers_eq, List.map_map]
      exact settable_mapped h fun _ hv => sortJsonValue_defined _ (encode_defined hv)
    obtain ⟨j, hj, hw⟩ := rebuilt_json hs (sortedMembers_json ms h.2.2)
    rw [encode]
    split
    · refine ⟨.obj [(js "$escape", j)], ?_, List.nodup_singleton _, hw, trivial⟩
      rw [sortJsonValue, sortMembers, sortMembers, rebuild_single (by decide) rfl, sortJsonValue, ← hj]
      rfl
    · exact ⟨j, by rw [hj, sortJsonValue], hw⟩

theorem sortedElems_json : ∀ xs : List Value, QuietElems xs →
    ∃ js', ofJsonElems js' = sortElems (encodeElems xs) ∧ WFElems js'
  | [], _ => ⟨[], rfl, trivial⟩
  | x :: xs, h => by
    obtain ⟨j, hj, hw⟩ := sorted_json x h.1
    obtain ⟨js', hjs, hws⟩ := sortedElems_json xs h.2
    exact ⟨j :: js', by rw [ofJsonElems, hj, hjs, encodeElems, sortElems], hw, hws⟩

theorem sortedMembers_json : ∀ ms : List (Text × Value), QuietMembers ms →
    ∀ m ∈ sortMembers (encodeMembers ms), ∃ j, ofJson j = m.2 ∧ WF j
  | [], _, _, hm => by cases hm
  | (k, v) :: ms, h, m, hm => by
    rcases List.mem_cons.mp hm with hmv | hm
    · rw [hmv]
      exact sorted_json v h.1
    · exact sortedMembers_json ms h.2 m hm

end

theorem toText_dropNegZero (d : Decimal) : d.dropNegZero.toText = d.toText := by
  by_cases h : d.sig = 0
  · rw [Decimal.dropNegZero, if_pos h]
    simp [Decimal.toText, h, Decimal.zero]
  · rw [Decimal.dropNegZero, if_neg h]

mutual

/-- A negative zero is written as zero. -/
theorem stringify_dropNegZero : ∀ j : Json, stringify (dropNegZero j) = stringify j
  | .null | .bool _ | .str _ => rfl
  | .num d => toText_dropNegZero d
  | .arr [] | .obj [] => rfl
  | .arr (x :: xs) => by
    rw [dropNegZero, dropNegZeroElems, stringify, stringify, stringify_dropNegZero x,
      stringifyElems_dropNegZero xs]
  | .obj ((k, v) :: ms) => by
    rw [dropNegZero, dropNegZeroMembers, stringify, stringify, stringify_dropNegZero v,
      stringifyMembers_dropNegZero ms]

theorem stringifyElems_dropNegZero : ∀ xs : List Json,
    stringifyElems (dropNegZeroElems xs) = stringifyElems xs
  | [] => rfl
  | x :: xs => by
    rw [dropNegZeroElems, stringifyElems, stringifyElems, stringify_dropNegZero x,
      stringifyElems_dropNegZero xs]

theorem stringifyMembers_dropNegZero : ∀ ms : List (Text × Json),
    stringifyMembers (dropNegZeroMembers ms) = stringifyMembers ms
  | [] => rfl
  | (k, v) :: ms => by
    rw [dropNegZeroMembers, stringifyMembers, stringifyMembers, stringify_dropNegZero v,
      stringifyMembers_dropNegZero ms]

end

/-- Two JSON values have one text when they differ in the signs of zeros only. -/
theorem stringify_eq_iff {j j' : Json} (h : WF j) (h' : WF j') :
    stringify j = stringify j' ↔ dropNegZero j = dropNegZero j' := by
  constructor
  · intro heq
    have hp := parse_stringify h
    rw [heq, parse_stringify h'] at hp
    exact (Option.some.inj hp).symm
  · intro heq
    rw [← stringify_dropNegZero j, heq, stringify_dropNegZero]

/-- The canonical text of a quiet value. -/
theorem stringifyCanonical_some {rt : Runtime} {v : Value} (h : Quiet v) :
    ∃ j, stringifyCanonical rt v = some (stringify j) ∧ WF j ∧ ofJson (dropNegZero j) = wire v := by
  obtain ⟨j, hj, hw⟩ := sorted_json v h
  refine ⟨j, ?_, hw, ?_⟩
  · rw [stringifyCanonical, toJSONValue_eq_encode h, stableStringify, ← hj, toJson?_ofJson,
      Option.map_some]
  · rw [ofJson_dropNegZero, hj, wire]

/-! ## What a text tells apart -/

/-- The kinds of values that EJSON writes. -/
inductive Kind where
  | null
  | bool
  | num
  | str
  | date
  | regexp
  | binary
  | arr
  | obj
  deriving DecidableEq

def kindOf : Value → Kind
  | .undefined | .null => .null
  | .bool _ => .bool
  | .num _ => .num
  | .str _ => .str
  | .date _ => .date
  | .regexp _ => .regexp
  | .binary _ => .binary
  | .arr _ => .arr
  | .obj _ => .obj

/-- The tag that an object reads as. -/
def tagOf (ms : List (Text × Value)) : Option Converter :=
  builtinConverters.find? (·.matchJSONValue (.obj ms))

/-- The kind of the value that a form was written for. -/
def wireKind : Value → Kind
  | .obj ms => match tagOf ms with
    | some .date => .date
    | some .regexp => .regexp
    | some .infNaN => .num
    | some .binary => .binary
    | _ => .obj
  | v => kindOf v

/-- The tag depends on the keys only, in any order. -/
theorem tagOf_perm {ms ns : List (Text × Value)} (h : (ms.map Prod.fst).Perm (ns.map Prod.fst)) :
    tagOf ms = tagOf ns := by
  have hown : hasOwn ms = hasOwn ns := by
    funext k
    rw [Bool.eq_iff_iff, hasOwn_iff, hasOwn_iff, h.mem_iff]
  have hlen : ms.length = ns.length := by simpa using h.length_eq
  simp only [tagOf, Converter.matchJSONValue, hown, hlen]

theorem tagged_eq (ms : List (Text × Value)) : tagged ms = (tagOf ms).isSome := by
  rw [tagged, tagOf, Bool.eq_iff_iff, List.find?_isSome, List.any_eq_true]

/-- The written form of a tag of one key. -/
theorem wire_single (k : Text) {v x : Value} (he : encode v = .obj [(k, x)])
    (hk : k ≠ js "__proto__") (hs : sortJsonValue x = x) (hx : x.isUndefined = false) :
    wire v = .obj [(k, zeroed x)] := by
  rw [wire, he, sortJsonValue, sortMembers, sortMembers, hs, rebuild_single hk hx, zeroed,
    zeroedMembers, zeroedMembers]

theorem wire_date (n : Int) :
    wire (.date (some n)) = .obj [(js "$date", .num (.finite (ofInt n).dropNegZero))] := by
  rw [wire_single (js "$date") rfl (by decide) rfl rfl]
  rfl

theorem wire_nan : wire (.num .nan) = .obj [(js "$InfNaN", .num (.finite (ofInt 0)))] := by
  rw [wire_single (js "$InfNaN") rfl (by decide) rfl rfl]
  rfl

theorem wire_infinity (neg : Bool) : wire (.num (.infinity neg)) =
    .obj [(js "$InfNaN", .num (.finite (ofInt (if neg then -1 else 1))))] := by
  rw [wire_single (js "$InfNaN") rfl (by decide) rfl rfl]
  cases neg <;> rfl

theorem wire_binary (bytes : List UInt8) :
    wire (.binary bytes) = .obj [(js "$binary", .str (encodeBase64 bytes))] := by
  rw [wire_single (js "$binary") rfl (by decide) rfl rfl]
  rfl

theorem wire_regexp (r : RegExp) : wire (.regexp r) =
    .obj (rebuild [(js "$regexp", .str r.source), (js "$flags", .str r.flags)]) := by
  have hmap := @rebuild_map zeroed zeroed_defined _ (settable_regexp r.source r.flags)
  have hsort : sortMembers [(js "$regexp", .str r.source), (js "$flags", .str r.flags)] =
      [(js "$regexp", .str r.source), (js "$flags", .str r.flags)] := rfl
  rw [wire, encode, sortJsonValue, hsort, zeroed, zeroedMembers_eq, ← hmap]
  rfl

theorem wire_arr (xs : List Value) : wire (.arr xs) = .arr (xs.map wire) := by
  have hxs : ∀ xs : List Value, zeroedElems (sortElems (encodeElems xs)) = xs.map wire := by
    intro xs
    induction xs with
    | nil => rfl
    | cons x xs ih => rw [encodeElems, sortElems, zeroedElems, ih, List.map_cons, wire]
  rw [wire, encode, sortJsonValue, zeroed, hxs]

/-- The tag of a written object. -/
theorem wire_obj_tag {ms : List (Text × Value)} (h : Quiet (.obj ms)) :
    ∃ es, wire (.obj ms) = .obj es ∧ tagOf es = if tagged ms then some .escape else none := by
  rw [wire_obj h]
  by_cases htag : tagged ms = true
  · rw [if_pos htag, if_pos htag]
    exact ⟨_, rfl, rfl⟩
  · have hp := (rebuild_perm (settable_wire h)).map Prod.fst
    rw [wireMembers_keys] at hp
    rw [if_neg htag, if_neg htag]
    refine ⟨_, rfl, ?_⟩
    rw [tagged_eq, Bool.not_eq_true, Option.isSome_eq_false_iff, Option.isNone_iff_eq_none] at htag
    rw [tagOf_perm hp, htag]

/-- **The text tells kinds apart.** -/
theorem wireKind_wire {v : Value} (h : Quiet v) : wireKind (wire v) = kindOf v := by
  cases v with
  | undefined => exact h.elim
  | null => rfl
  | bool b => rfl
  | str s => rfl
  | num n =>
    cases n with
    | finite d => rfl
    | nan =>
      rw [wire_nan]
      rfl
    | infinity neg =>
      rw [wire_infinity]
      rfl
  | date t =>
    obtain ⟨n, rfl⟩ := Option.isSome_iff_exists.mp h
    rw [wire_date]
    rfl
  | regexp r =>
    have hp := (rebuild_perm (settable_regexp r.source r.flags)).map Prod.fst
    rw [wire_regexp, wireKind, tagOf_perm hp]
    rfl
  | binary bytes =>
    rw [wire_binary]
    rfl
  | arr xs =>
    rw [wire_arr]
    rfl
  | obj ms =>
    obtain ⟨es, hes, htag⟩ := wire_obj_tag h
    rw [hes, wireKind, htag]
    by_cases hms : tagged ms = true
    · rw [if_pos hms]
      rfl
    · rw [if_neg hms]
      rfl

theorem ofInt_inj {m n : Int} (h : (ofInt m).dropNegZero = (ofInt n).dropNegZero) : m = n := by
  obtain ⟨-, hm, hmn⟩ := ofInt_spec m
  obtain ⟨-, hn, hnn⟩ := ofInt_spec n
  rw [Decimal.dropNegZero, Decimal.dropNegZero] at h
  by_cases hz : (ofInt m).sig = 0
  · rw [if_pos hz] at h
    have hz' : (ofInt n).sig = 0 := by
      by_contra hne
      rw [if_neg hne] at h
      exact hne (h ▸ rfl)
    rw [hz, Nat.zero_mul] at hm
    rw [hz', Nat.zero_mul] at hn
    omega
  · rw [if_neg hz] at h
    have hz' : (ofInt n).sig ≠ 0 := by
      intro hz'
      rw [if_pos hz'] at h
      exact hz (h ▸ rfl)
    rw [if_neg hz'] at h
    rw [h] at hm hmn
    have habs : m.natAbs = n.natAbs := hm.symm.trans hn
    have hsign : decide (m < 0) = decide (n < 0) := hmn.symm.trans hnn
    rw [decide_eq_decide] at hsign
    omega

/-- Numbers are equal when they are written alike. -/
theorem numEquals_iff (m n : Number) : wire (.num m) = wire (.num n) ↔ numEquals m n = true := by
  cases m with
  | finite d =>
    cases n with
    | finite e =>
      have hw : wire (.num (.finite d)) = wire (.num (.finite e)) ↔
          d.dropNegZero = e.dropNegZero := by
        simp only [wire, encode, sortJsonValue, zeroed, Value.num.injEq, Number.finite.injEq]
      rw [hw, numEquals, Decimal.dropNegZero, Decimal.dropNegZero]
      by_cases hd : d.sig = 0 <;> by_cases he : e.sig = 0
      · simp [hd, he]
      · have hne : d ≠ e := fun h => he (h ▸ hd)
        have hz : Decimal.zero ≠ e := fun h => he (h ▸ rfl)
        simp [hd, he, hne, hz]
      · have hne : d ≠ e := fun h => hd (h ▸ he)
        have hz : d ≠ Decimal.zero := fun h => hd (h ▸ rfl)
        simp [hd, he, hne, hz]
      · simp [hd, he]
    | nan => simp [wire, encode, sortJsonValue, zeroed, numEquals]
    | infinity t => simp [wire, encode, sortJsonValue, zeroed, numEquals]
  | nan =>
    cases n with
    | finite e => simp [wire, encode, sortJsonValue, zeroed, numEquals]
    | nan => simp [numEquals]
    | infinity t =>
      rw [wire_nan, wire_infinity]
      cases t <;> simp only [Bool.false_eq_true, if_true, if_false] <;> decide
  | infinity s =>
    cases n with
    | finite e => simp [wire, encode, sortJsonValue, zeroed, numEquals]
    | nan =>
      rw [wire_nan, wire_infinity]
      cases s <;> simp only [Bool.false_eq_true, if_true, if_false] <;> decide
    | infinity t =>
      rw [wire_infinity, wire_infinity]
      cases s <;> cases t <;> simp only [Bool.false_eq_true, if_true, if_false] <;> decide

theorem encodeBase64_inj {x y : List UInt8} (h : encodeBase64 x = encodeBase64 y) : x = y := by
  have hx := decodeBase64_encodeBase64 x
  rw [h, decodeBase64_encodeBase64] at hx
  exact (Except.ok.inj hx).symm

theorem wire_regexp_inj {r s : RegExp} (h : wire (.regexp r) = wire (.regexp s)) : r = s := by
  rw [wire_regexp, wire_regexp] at h
  have hp := (rebuild_inj (settable_regexp _ _) (settable_regexp _ _)).mp (Value.obj.inj h)
  have hin : ∀ {k : Text} {t : Text},
      (k, Value.str t) ∈ [(js "$regexp", Value.str r.source), (js "$flags", Value.str r.flags)] →
        getOwn k [(js "$regexp", Value.str s.source), (js "$flags", Value.str s.flags)] =
          some (.str t) := by
    intro k t hm
    exact getOwn_of_mem (settable_regexp s.source s.flags).keys (hp.mem_iff.mp hm)
  have hsource := hin (List.mem_cons_self ..)
  have hflags := hin (List.mem_cons_of_mem _ (List.mem_singleton.mpr rfl))
  cases r
  cases s
  cases hsource
  cases hflags
  rfl

/-! ## Equality of texts -/

/-- Two objects are written alike exactly when their members are. -/
theorem wire_obj_eq_iff {ms ns : List (Text × Value)} (hm : Quiet (.obj ms)) (hn : Quiet (.obj ns)) :
    wire (.obj ms) = wire (.obj ns) ↔ (wireMembers ms).Perm (wireMembers ns) := by
  have hre := rebuild_inj (settable_wire hm) (settable_wire hn)
  constructor
  · intro h
    obtain ⟨es, hes, hetag⟩ := wire_obj_tag hm
    obtain ⟨fs, hfs, hftag⟩ := wire_obj_tag hn
    have hef : es = fs := Value.obj.inj (hes.symm.trans (h.trans hfs))
    rw [hef, hftag] at hetag
    rw [wire_obj hm, wire_obj hn] at h
    rw [← hre]
    by_cases hms : tagged ms = true <;> by_cases hns : tagged ns = true
    · rw [if_pos hms, if_pos hns] at h
      simpa using h
    · rw [if_pos hms, if_neg hns] at hetag
      cases hetag
    · rw [if_neg hms, if_pos hns] at hetag
      cases hetag
    · rw [if_neg hms, if_neg hns] at h
      exact Value.obj.inj h
  · intro h
    have hk := h.map Prod.fst
    rw [wireMembers_keys, wireMembers_keys] at hk
    rw [wire_obj hm, wire_obj hn, tagged_eq, tagged_eq, tagOf_perm hk, hre.mpr h]

theorem agreeMembers_iff {clashes : Bool} {ms ns : List (Text × Value)} : agreeMembers clashes ms ns = true ↔
    ∀ m ∈ ms, ∃ y, getOwn m.1 ns = some y ∧ agree clashes m.2 y = true := by
  induction ms with
  | nil => simp [agreeMembers]
  | cons m ms ih =>
    rw [agreeMembers, Bool.and_eq_true, ih, List.forall_mem_cons]
    refine and_congr_left fun _ => ?_
    cases getOwn m.1 ns with
    | none => simp
    | some y => simp

/-- Members agree when every one of them is written in the other object too. -/
theorem members_agree {ms ns : List (Text × Value)} (hm : Quiet (.obj ms)) (hn : Quiet (.obj ns))
    (ih : ∀ m ∈ ms, ∀ y, Quiet y → (wire m.2 = wire y ↔ agree false m.2 y = true)) :
    (wireMembers ms).Perm (wireMembers ns) ↔
      ms.length = ns.length ∧ agreeMembers false ms ns = true := by
  rw [agreeMembers_iff]
  constructor
  · intro hp
    refine ⟨by simpa [wireMembers] using hp.length_eq, fun m hin => ?_⟩
    have hw : (m.1, wire m.2) ∈ wireMembers ns := hp.mem_iff.mp (List.mem_map_of_mem hin)
    obtain ⟨n, hn', heq⟩ := List.mem_map.mp hw
    have hkey : n.1 = m.1 := (Prod.mk.inj heq).1
    have hval : wire n.2 = wire m.2 := (Prod.mk.inj heq).2
    refine ⟨n.2, ?_, (ih m hin n.2 (quiet_of_mem hn.2.2 n hn')).mp hval.symm⟩
    rw [← hkey]
    exact getOwn_of_mem hn.1 hn'
  · intro ⟨hlen, hall⟩
    have hsub : wireMembers ms ⊆ wireMembers ns := by
      intro w hw
      obtain ⟨m, hin, rfl⟩ := List.mem_map.mp hw
      obtain ⟨y, hy, hagree⟩ := hall m hin
      have hmem := mem_of_getOwn hy
      rw [(ih m hin y (quiet_of_mem hn.2.2 _ hmem)).mpr hagree]
      exact List.mem_map.mpr ⟨(m.1, y), hmem, rfl⟩
    have hnd : (wireMembers ms).Nodup := List.Nodup.of_map _ (settable_wire hm).keys
    refine (List.subperm_of_subset hnd hsub).perm_of_length_le ?_
    simp [wireMembers, hlen]

/-- Values of different kinds are neither written alike nor do they agree. -/
theorem apart {a b : Value} (ha : Quiet a) (hb : Quiet b) (hk : kindOf a ≠ kindOf b)
    (hf : agree false a b = false) : wire a = wire b ↔ agree false a b = true := by
  rw [hf]
  refine iff_of_false (fun h => hk ?_) Bool.false_ne_true
  rw [← wireKind_wire ha, h, wireKind_wire hb]

mutual

/-- **What a canonical text tells apart.** -/
theorem wire_eq_iff_agree : ∀ a b : Value, Quiet a → Quiet b →
    (wire a = wire b ↔ agree false a b = true)
  | .undefined, _, h, _ => h.elim
  | .null, b, ha, hb => by
    cases b with
    | null => exact iff_of_true rfl rfl
    | undefined => exact hb.elim
    | _ => exact apart ha hb (by simp [kindOf]) rfl
  | .bool x, b, ha, hb => by
    cases b with
    | bool y => simp [wire, encode, sortJsonValue, zeroed, agree]
    | _ => exact apart ha hb (by simp [kindOf]) rfl
  | .num x, b, ha, hb => by
    cases b with
    | num y => exact numEquals_iff x y
    | _ => exact apart ha hb (by simp [kindOf]) rfl
  | .str x, b, ha, hb => by
    cases b with
    | str y => simp [wire, encode, sortJsonValue, zeroed, agree]
    | _ => exact apart ha hb (by simp [kindOf]) rfl
  | .date s, b, ha, hb => by
    cases b with
    | date t =>
      obtain ⟨m, rfl⟩ := Option.isSome_iff_exists.mp ha
      obtain ⟨n, rfl⟩ := Option.isSome_iff_exists.mp hb
      rw [wire_date, wire_date, agree, beq_iff_eq]
      constructor
      · intro h
        have hd : (ofInt m).dropNegZero = (ofInt n).dropNegZero := by simpa using h
        rw [ofInt_inj hd]
      · intro h
        rw [Option.some.inj h]
    | _ => exact apart ha hb (by simp [kindOf]) rfl
  | .regexp r, b, ha, hb => by
    cases b with
    | regexp s =>
      rw [agree, Bool.false_or, decide_eq_true_eq]
      exact ⟨wire_regexp_inj, fun h => by rw [h]⟩
    | _ => exact apart ha hb (by simp [kindOf]) rfl
  | .binary x, b, ha, hb => by
    cases b with
    | binary y =>
      rw [wire_binary, wire_binary, agree, beq_iff_eq]
      constructor
      · intro h
        exact encodeBase64_inj (by simpa using h)
      · intro h
        rw [h]
    | _ => exact apart ha hb (by simp [kindOf]) rfl
  | .arr xs, b, ha, hb => by
    cases b with
    | arr ys =>
      rw [wire_arr, wire_arr, agree, Value.arr.injEq]
      exact wireElems_eq_iff_agree xs ys ha hb
    | _ => exact apart ha hb (by simp [kindOf]) rfl
  | .obj ms, b, ha, hb => by
    cases b with
    | obj ns =>
      rw [wire_obj_eq_iff ha hb, agree, Bool.and_eq_true, beq_iff_eq]
      exact members_agree ha hb (wireMembers_eq_iff_agree ms ha.2.2)
    | _ => exact apart ha hb (by simp [kindOf]) rfl

theorem wireElems_eq_iff_agree : ∀ xs ys : List Value, QuietElems xs → QuietElems ys →
    (xs.map wire = ys.map wire ↔ agreeElems false xs ys = true)
  | [], ys, _, _ => by cases ys <;> simp [agreeElems]
  | x :: xs, [], _, _ => by simp [agreeElems]
  | x :: xs, y :: ys, hx, hy => by
    rw [List.map_cons, List.map_cons, List.cons.injEq, agreeElems, Bool.and_eq_true,
      wire_eq_iff_agree x y hx.1 hy.1, wireElems_eq_iff_agree xs ys hx.2 hy.2]

theorem wireMembers_eq_iff_agree : ∀ ms : List (Text × Value), QuietMembers ms →
    ∀ m ∈ ms, ∀ y, Quiet y → (wire m.2 = wire y ↔ agree false m.2 y = true)
  | [], _, _, hm, _, _ => by cases hm
  | (k, x) :: ms, h, m, hm, y, hy => by
    rcases List.mem_cons.mp hm with hmx | hm
    · rw [hmx]
      exact wire_eq_iff_agree x y h.1 hy
    · exact wireMembers_eq_iff_agree ms h.2 m hm y hy

end

mutual

theorem agree_weaken : ∀ a b : Value, agree false a b = true → agree true a b = true
  | .undefined, b, h | .null, b, h | .bool _, b, h | .num _, b, h | .str _, b, h | .date _, b, h
  | .binary _, b, h => by cases b <;> first | exact h | cases h
  | .regexp _, b, h => by cases b <;> first | rfl | cases h
  | .arr xs, b, h => by
    cases b with
    | arr ys => exact agreeElems_weaken xs ys h
    | _ => cases h
  | .obj ms, b, h => by
    cases b with
    | obj ns =>
      rw [agree, Bool.and_eq_true] at h ⊢
      exact ⟨h.1, agreeMembers_weaken ms ns h.2⟩
    | _ => cases h

theorem agreeElems_weaken : ∀ xs ys : List Value, agreeElems false xs ys = true →
    agreeElems true xs ys = true
  | [], [], _ => rfl
  | x :: xs, y :: ys, h => by
    rw [agreeElems, Bool.and_eq_true] at h ⊢
    exact ⟨agree_weaken x y h.1, agreeElems_weaken xs ys h.2⟩

theorem agreeMembers_weaken : ∀ ms ns : List (Text × Value), agreeMembers false ms ns = true →
    agreeMembers true ms ns = true
  | [], _, _ => rfl
  | (k, x) :: ms, ns, h => by
    rw [agreeMembers, Bool.and_eq_true] at h ⊢
    refine ⟨?_, agreeMembers_weaken ms ns h.2⟩
    cases hg : getOwn k ns with
    | none =>
      rw [hg] at h
      cases h.1
    | some y =>
      rw [hg] at h
      exact agree_weaken x y h.1

end

/-- **When equality is wire equality.** Two quiet trees have canonical texts, and the
comparison says whether these are the same exactly when the trees do not differ by
clashes only. -/
theorem equals_iff_same_text (rt : Runtime) {a b : Value} (ha : Quiet a) (hb : Quiet b) :
    ∃ s t, stringifyCanonical rt a = some s ∧ stringifyCanonical rt b = some t ∧
      ((equals false a b = true ↔ s = t) ↔ ¬ (agree true a b = true ∧ agree false a b = false)) := by
  obtain ⟨j, hj, hwj, hja⟩ := @stringifyCanonical_some rt a ha
  obtain ⟨j', hj', hwj', hjb⟩ := @stringifyCanonical_some rt b hb
  refine ⟨_, _, hj, hj', ?_⟩
  have htext : stringify j = stringify j' ↔ agree false a b = true := by
    rw [stringify_eq_iff hwj hwj', ← ofJson_inj, hja, hjb]
    exact wire_eq_iff_agree a b ha hb
  rw [htext, equals_eq_agree a b ha]
  constructor
  · intro h ⟨hyes, hno⟩
    rw [h.mp hyes] at hno
    cases hno
  · intro h
    refine ⟨fun hyes => ?_, agree_weaken a b⟩
    by_contra hno
    exact h ⟨hyes, Bool.eq_false_iff.mpr hno⟩

/-- Two trees that list their keys in different orders, with a date and a negative zero
inside. -/
theorem equals_iff_same_text_reordered :
    let a : Value := .obj [(js "at", .date (some 7)), (js "0", .num (.finite ⟨true, 0, 0, by decide⟩))]
    let b : Value := .obj [(js "0", .num (.finite ⟨false, 0, 0, by decide⟩)), (js "at", .date (some 7))]
    ∃ s t, stringifyCanonical plainRuntime a = some s ∧ stringifyCanonical plainRuntime b = some t ∧
      equals false a b = true ∧ s = t := by
  intro a b
  have ha : Quiet a := ⟨by decide, by decide, rfl, trivial, trivial⟩
  have hb : Quiet b := ⟨by decide, by decide, trivial, rfl, trivial⟩
  obtain ⟨s, t, hs, ht, h⟩ := equals_iff_same_text plainRuntime ha hb
  have hyes : equals false a b = true := by decide
  exact ⟨s, t, hs, ht, hyes, (h.mpr (by decide)).mp hyes⟩

/-- A date and an empty object are equal, and are written as different texts. -/
theorem date_equals_empty_object : ∃ a b s t, Quiet a ∧ Quiet b ∧ equals false a b = true ∧
    stringifyCanonical plainRuntime a = some s ∧ stringifyCanonical plainRuntime b = some t ∧
    s ≠ t := by
  refine ⟨.date (some 0), .obj [], js "\x7b\"$date\":0\x7d", js "\x7b\x7d", rfl,
    ⟨List.nodup_nil, rfl, trivial⟩, rfl, ?_, ?_, ?_⟩
  · rfl
  · rfl
  · decide

end TypeFerry.Ejson.WireEquality
