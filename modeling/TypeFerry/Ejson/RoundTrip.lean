import TypeFerry.Ejson.Encode

/-! # EJSON round trip

On every value of the domain (`Good`) the code computes the JSON form of the
value and inverts it (`fromJSONValue_encode`), also through its text. -/
namespace TypeFerry.Ejson.RoundTrip
open TypeFerry.Lib.Numeral TypeFerry.Lib.JsonText TypeFerry.Ejson.Clone TypeFerry.Ejson.Base64
open TypeFerry.Ejson.Convert TypeFerry.Ejson.Encode

/-! ## The domain -/

/-- Keys that `clone` or an assignment treats specially. -/
def reservedKeys : List Text :=
  [js "__proto__", js "callee", js "constructor", js "_bsontype", js "$__", js "_doc", js "clone",
    js "typeName", js "toJSONValue"]

/-- Flags among `g`, `i`, `m`, `u`, `y`, as a `RegExp` reports them: in
alphabetical order, each once. -/
def FlagsOk (flags : Text) : Prop := flags.Sublist (js "gimuy")

mutual

/-- The values that survive the wire: no `undefined`, valid dates, regular
expressions of the runtime with sanitized flags, and objects with distinct keys
none of which is reserved. -/
def Good (rt : Runtime) : Value → Prop
  | .undefined => False
  | .date t => ∃ n, t = some n ∧ n.natAbs ≤ 8640000000000000
  | .regexp r => FlagsOk r.flags ∧ rt.newRegExp r.source r.flags = some r
  | .arr xs => GoodElems rt xs
  | .obj ms => (ms.map Prod.fst).Nodup ∧ (∀ k ∈ ms.map Prod.fst, k ∉ reservedKeys) ∧
      GoodMembers rt ms
  | _ => True

def GoodElems (rt : Runtime) : List Value → Prop
  | [] => True
  | x :: xs => Good rt x ∧ GoodElems rt xs

def GoodMembers (rt : Runtime) : List (Text × Value) → Prop
  | [] => True
  | (_, v) :: ms => Good rt v ∧ GoodMembers rt ms

end

mutual

/-- Objects of the domain are not foreign, so `clone` leaves them alone. -/
theorem quiet_of_good {rt : Runtime} : ∀ v : Value, Good rt v → Quiet v
  | .undefined, h => h.elim
  | .null, _ | .bool _, _ | .num _, _ | .str _, _ | .regexp _, _ | .binary _, _ => trivial
  | .date _, h => by
    obtain ⟨n, rfl, -⟩ := h
    rfl
  | .arr xs, h => quietElems_of_good xs h
  | .obj ms, h => by
    rw [Good] at h
    obtain ⟨hn, hr, hg⟩ := h
    have hno : ∀ k ∈ reservedKeys, getOwn k ms = none := fun k hk =>
      getOwn_none fun hm => hr k hm hk
    refine ⟨hn, isForeign_eq_false.mpr ⟨⟨⟨?_, ?_⟩, ?_⟩, ?_⟩, quietMembers_of_good ms hg⟩
    · simp [isObjectIdLike, hno (js "_bsontype") (by simp [reservedKeys])]
    · simp [isHydrated, hno (js "_doc") (by simp [reservedKeys]), Value.isObjectAndNotNull,
        Value.isObject]
    · simp [isArguments, hasOwn, hno (js "callee") (by simp [reservedKeys])]
    · exact fun hm => hr _ hm (by simp [reservedKeys])

theorem quietElems_of_good {rt : Runtime} : ∀ xs : List Value, GoodElems rt xs → QuietElems xs
  | [], _ => trivial
  | x :: xs, h => by
    rw [GoodElems] at h
    exact ⟨quiet_of_good x h.1, quietElems_of_good xs h.2⟩

theorem quietMembers_of_good {rt : Runtime} : ∀ ms : List (Text × Value), GoodMembers rt ms →
    QuietMembers ms
  | [], _ => trivial
  | (_, v) :: ms, h => by
    rw [GoodMembers] at h
    exact ⟨quiet_of_good v h.1, quietMembers_of_good ms h.2⟩

end

theorem good_of_mem {rt : Runtime} : ∀ {ms : List (Text × Value)}, GoodMembers rt ms →
    ∀ m ∈ ms, Good rt m.2
  | (k, v) :: ms, h, m, hm => by
    rw [GoodMembers] at h
    rcases List.mem_cons.mp hm with rfl | hm
    · exact h.1
    · exact good_of_mem h.2 m hm

/-! ## From JSON -/

/-- The keys of tags are not reserved. -/
theorem tagKeys_not_reserved : ∀ c : Converter, ∀ k ∈ c.tagKeys, k ∉ reservedKeys := by
  intro c
  cases c <;> decide

mutual

/-- The encoding has the same plain shape as its value, so `clone` keeps it. -/
theorem encode_good {rt : Runtime} : ∀ v : Value, Good rt v → Good rt (encode v)
  | .undefined, h => h.elim
  | .null, h | .bool _, h | .num (.finite _), h | .str _, h => h
  | .num .nan, _ | .num (.infinity _), _ | .date _, _ | .binary _, _ => by
    simp only [encode, Good, GoodMembers, List.map_cons, List.map_nil]
    decide
  | .regexp _, _ => by
    simp only [encode, Good, GoodMembers, List.map_cons, List.map_nil]
    decide
  | .arr xs, h => by
    rw [Good] at h
    rw [encode, Good]
    exact encodeElems_good xs h
  | .obj ms, h => by
    rw [Good] at h
    have hm : Good rt (.obj (encodeMembers ms)) := by
      rw [Good, encodeMembers_keys]
      exact ⟨h.1, h.2.1, encodeMembers_good ms h.2.2⟩
    rw [encode]
    split
    · rw [Good]
      refine ⟨by simp, ?_, ?_⟩
      · intro k hk
        exact tagKeys_not_reserved .escape k (by simpa [Converter.tagKeys] using hk)
      · rw [GoodMembers]
        exact ⟨hm, trivial⟩
    · exact hm

theorem encodeElems_good {rt : Runtime} : ∀ xs : List Value, GoodElems rt xs →
    GoodElems rt (encodeElems xs)
  | [], _ => trivial
  | x :: xs, h => by
    rw [GoodElems] at h
    rw [encodeElems, GoodElems]
    exact ⟨encode_good x h.1, encodeElems_good xs h.2⟩

theorem encodeMembers_good {rt : Runtime} : ∀ ms : List (Text × Value), GoodMembers rt ms →
    GoodMembers rt (encodeMembers ms)
  | [], _ => trivial
  | (k, v) :: ms, h => by
    rw [GoodMembers] at h
    rw [encodeMembers, GoodMembers]
    exact ⟨encode_good v h.1, encodeMembers_good ms h.2⟩

end

theorem timeClip_ofInt {n : Int} (h : n.natAbs ≤ 8640000000000000) :
    timeClip (.finite (ofInt n)) = some n := by
  obtain ⟨he, hs, hn⟩ := ofInt_spec n
  simp only [timeClip, truncNat, he, if_true, hs, hn, h]
  by_cases hneg : n < 0
  · simp only [hneg, decide_true, if_true]; congr 1; omega
  · simp only [hneg, decide_false, Bool.false_eq_true, if_false]; congr 1; omega

theorem keepLast_nodup : ∀ {s : Text}, s.Nodup → keepLast s = s
  | [], _ => rfl
  | u :: s, h => by
    obtain ⟨hu, hs⟩ := List.nodup_cons.mp h
    rw [keepLast, if_neg hu, keepLast_nodup hs]

/-- Flags that a `RegExp` reports pass the sanitizer unchanged. -/
theorem sanitizeFlags_ok {flags : Text} (h : FlagsOk flags) : sanitizeFlags flags = flags := by
  have hlen : flags.length ≤ 50 := Nat.le_trans h.length_le (by decide)
  have hf : flags.filter (· ∈ js "gimuy") = flags :=
    List.filter_eq_self.mpr fun u hu => decide_eq_true (h.subset hu)
  rw [sanitizeFlags, List.take_of_length_le hlen, hf, keepLast_nodup (h.nodup (by decide))]

theorem unescapeEntries_encode {rt : Runtime} {rec : Value → Except Text Value} :
    ∀ (ms acc : List (Text × Value)), (acc.map Prod.fst ++ ms.map Prod.fst).Nodup →
    js "__proto__" ∉ ms.map Prod.fst → GoodMembers rt ms →
    (∀ m ∈ ms, rec (encode m.2) = .ok m.2) →
    unescapeEntries rec acc (encodeMembers ms) = .ok (acc ++ ms)
  | [], acc, _, _, _, _ => by simp [encodeMembers, unescapeEntries]
  | (k, v) :: ms, acc, hn, hp, hg, hrec => by
    simp only [List.map_cons, List.mem_cons, not_or] at hp
    rw [GoodMembers] at hg
    have hk : k ∉ acc.map Prod.fst := fun h =>
      (List.nodup_append.mp hn).2.2 k h k (by simp) rfl
    have hv : rec (encode v) = .ok v := hrec (k, v) (by simp)
    have ih := unescapeEntries_encode ms (acc ++ [(k, v)]) (by simpa using hn) hp.2 hg.2
      fun m hm => hrec m (by simp [hm])
    simp only [encodeMembers, unescapeEntries, hv, bind, Except.bind, assign,
      if_neg (Ne.symm hp.1), setMember_fresh hk, ih, List.append_assoc, List.cons_append,
      List.nil_append]

/-- An object that does not read as a tag is returned as it is. -/
theorem fromJSONValueHelper_untagged (rt : Runtime) (rec : Value → Except Text Value)
    {ms : List (Text × Value)} (h : tagged ms = false) :
    fromJSONValueHelper rt rec (.obj ms) = none := by
  have hf : builtinConverters.find? (·.matchJSONValue (.obj ms)) = none := by
    rw [List.find?_eq_none]
    intro c hc
    simp only [tagged, List.any_eq_false] at h
    exact h c hc
  simp only [fromJSONValueHelper, hf, Option.map_none, ite_self]

theorem find_escape (v : Value) :
    builtinConverters.find? (·.matchJSONValue (.obj [(js "$escape", v)])) = some .escape := by
  -- the keys decide, not the value under the tag
  have hc : ∀ c : Converter, c.matchJSONValue (.obj [(js "$escape", v)]) =
      c.matchJSONValue (.obj [(js "$escape", .null)]) := by
    intro c
    apply matchJSONValue_congr
    rfl
  simp only [hc]
  decide

mutual

/-- The helper, and the adjuster where it returns its argument, decode every
encoding. -/
theorem helper_or_adjust_from {rt : Runtime} {rec : Value → Except Text Value} {n : Nat}
    (hrec : ∀ x, Good rt x → depth (encode x) < n → rec (encode x) = .ok x) : ∀ v : Value,
    Good rt v → depth (encode v) ≤ n →
    (fromJSONValueHelper rt rec (encode v)).getD (adjustTypesFromJSONValue rt rec (encode v)) = .ok v
  | .undefined, h, _ => h.elim
  | .null, _, _ | .bool _, _, _ | .num (.finite _), _, _ | .str _, _, _ => rfl
  | .num .nan, _, _ | .num (.infinity true), _, _ | .num (.infinity false), _, _ => rfl
  | .date t, h, _ => by
    obtain ⟨m, rfl, hm⟩ := h
    exact congrArg (fun r => Except.ok (Value.date r)) (timeClip_ofInt hm)
  | .regexp r, h, _ => by
    rw [Good] at h
    show (match rt.newRegExp r.source (sanitizeFlags r.flags) with
      | some r => Except.ok (Value.regexp r)
      | none => Except.error (js "Invalid regular expression")) = _
    rw [sanitizeFlags_ok h.1, h.2]
  | .binary bytes, _, _ => by
    show (do
      let bytes ← decodeBase64 (encodeBase64 bytes)
      Except.ok (Value.binary bytes)) = _
    rw [decodeBase64_encodeBase64]
    rfl
  | .arr xs, h, hd => by
    rw [Good] at h
    rw [encode, depth] at hd
    have hx := adjustElemsFrom_encode hrec xs h (by omega)
    simp only [encode, fromJSONValueHelper, adjustTypesFromJSONValue, hx, bind, Except.bind,
      Option.getD_none]
  | .obj ms, h, hd => by
    rw [Good] at h
    obtain ⟨hn, hr, hg⟩ := h
    have hp : js "__proto__" ∉ ms.map Prod.fst := fun hm => hr _ hm (by simp [reservedKeys])
    rw [encode] at hd ⊢
    by_cases ht : tagged ms = true
    · rw [if_pos ht] at hd ⊢
      simp only [depth, depthMembers] at hd
      have hu : unescapeEntries rec [] (encodeMembers ms) = .ok ([] ++ ms) :=
        unescapeEntries_encode ms [] (by simpa using hn) hp hg fun m hm =>
          hrec m.2 (good_of_mem hg m hm) (by
            have := depth_of_mem (m.1, encode m.2)
              (show (m.1, encode m.2) ∈ encodeMembers ms by
                rw [encodeMembers_eq]; exact List.mem_map.mpr ⟨m, hm, rfl⟩)
            simp only at this
            omega)
      have htl : tagLike [(js "$escape", Value.obj (encodeMembers ms))] = true := by
        have hd : (js "$escape").head? = some 36 := by decide
        simp [tagLike, hd]
      have hown : getOwn (js "$escape") [(js "$escape", Value.obj (encodeMembers ms))] =
          some (.obj (encodeMembers ms)) := by
        simp [getOwn]
      simp only [fromJSONValueHelper, htl, if_true, find_escape, Option.map_some, Option.getD_some,
        Converter.fromJSONValue, hown, requireEntries, bind, Except.bind, hu, List.nil_append]
    · simp only [Bool.not_eq_true] at ht
      have ht' : tagged (encodeMembers ms) = false := by
        rw [tagged_congr (encodeMembers_keys ms), ht]
      rw [if_neg (by simp [ht])] at hd ⊢
      rw [depth] at hd
      have hx := adjustMembersFrom_encode hrec ms hg (by omega)
      simp only [fromJSONValueHelper_untagged rt rec ht', adjustTypesFromJSONValue, hx, bind,
        Except.bind, Option.getD_none]

theorem adjustElemsFrom_encode {rt : Runtime} {rec : Value → Except Text Value} {n : Nat}
    (hrec : ∀ x, Good rt x → depth (encode x) < n → rec (encode x) = .ok x) : ∀ xs : List Value,
    GoodElems rt xs → depthElems (encodeElems xs) ≤ n →
    adjustElemsFrom rt rec (encodeElems xs) = .ok xs
  | [], _, _ => rfl
  | x :: xs, h, hd => by
    rw [GoodElems] at h
    rw [encodeElems, depthElems, Nat.max_le] at hd
    simp only [encodeElems, adjustElemsFrom, helper_or_adjust_from hrec x h.1 hd.1,
      adjustElemsFrom_encode hrec xs h.2 hd.2, bind, Except.bind]

theorem adjustMembersFrom_encode {rt : Runtime} {rec : Value → Except Text Value} {n : Nat}
    (hrec : ∀ x, Good rt x → depth (encode x) < n → rec (encode x) = .ok x) :
    ∀ ms : List (Text × Value), GoodMembers rt ms → depthMembers (encodeMembers ms) ≤ n →
    adjustMembersFrom rt rec (encodeMembers ms) = .ok ms
  | [], _, _ => rfl
  | (k, x) :: ms, h, hd => by
    rw [GoodMembers] at h
    rw [encodeMembers, depthMembers, Nat.max_le] at hd
    simp only [encodeMembers, adjustMembersFrom, helper_or_adjust_from hrec x h.1 hd.1,
      adjustMembersFrom_encode hrec ms h.2 hd.2, bind, Except.bind]

end

theorem fromJSONValueFuel_encode {rt : Runtime} : ∀ (n : Nat) (v : Value), Good rt v →
    depth (encode v) < n → fromJSONValueFuel rt n (encode v) = .ok v
  | 0, _, _, h => absurd h (Nat.not_lt_zero _)
  | n + 1, v, hg, h => by
    have hv := helper_or_adjust_from (fromJSONValueFuel_encode n) v hg (by omega)
    rw [fromJSONValueFuel, clone_quiet rt (encode v) (quiet_of_good _ (encode_good v hg))]
    cases hh : fromJSONValueHelper rt (fromJSONValueFuel rt n) (encode v) with
    | some r => simpa [hh] using hv
    | none =>
      rw [hh, Option.getD_none] at hv
      simp only [adjustedFrom, hh]
      split
      · exact hv
      · next hno =>
        cases hev : encode v <;> rw [hev] at hno hv <;>
          first | exact hv | exact absurd rfl hno

/-- **The code inverts the encoding.** -/
theorem fromJSONValue_encode {rt : Runtime} {v : Value} (h : Good rt v) :
    fromJSONValue rt (encode v) = .ok v :=
  fromJSONValueFuel_encode (depth (encode v) + 1) v h (Nat.lt_succ_self _)

/-! ## Through text -/

mutual

/-- Negative zeros read as zeros. -/
def readZeros : Value → Value
  | .num (.finite d) => .num (.finite d.dropNegZero)
  | .arr xs => .arr (readZerosElems xs)
  | .obj ms => .obj (readZerosMembers ms)
  | v => v

def readZerosElems : List Value → List Value
  | [] => []
  | x :: xs => readZeros x :: readZerosElems xs

def readZerosMembers : List (Text × Value) → List (Text × Value)
  | [] => []
  | (k, v) :: ms => (k, readZeros v) :: readZerosMembers ms

end

theorem readZerosMembers_keys : ∀ ms : List (Text × Value),
    (readZerosMembers ms).map Prod.fst = ms.map Prod.fst
  | [] => rfl
  | (k, v) :: ms => by rw [readZerosMembers, List.map_cons, readZerosMembers_keys ms, List.map_cons]

mutual

theorem readZeros_good {rt : Runtime} : ∀ v : Value, Good rt v → Good rt (readZeros v)
  | .undefined, h => h.elim
  | .null, h | .bool _, h | .num .nan, h | .num (.infinity _), h | .str _, h | .date _, h
  | .regexp _, h | .binary _, h => h
  | .num (.finite _), _ => trivial
  | .arr xs, h => by
    rw [Good] at h
    rw [readZeros, Good]
    exact readZerosElems_good xs h
  | .obj ms, h => by
    rw [Good] at h
    rw [readZeros, Good, readZerosMembers_keys]
    exact ⟨h.1, h.2.1, readZerosMembers_good ms h.2.2⟩

theorem readZerosElems_good {rt : Runtime} : ∀ xs : List Value, GoodElems rt xs →
    GoodElems rt (readZerosElems xs)
  | [], _ => trivial
  | x :: xs, h => by
    rw [GoodElems] at h
    rw [readZerosElems, GoodElems]
    exact ⟨readZeros_good x h.1, readZerosElems_good xs h.2⟩

theorem readZerosMembers_good {rt : Runtime} : ∀ ms : List (Text × Value), GoodMembers rt ms →
    GoodMembers rt (readZerosMembers ms)
  | [], _ => trivial
  | (k, v) :: ms, h => by
    rw [GoodMembers] at h
    rw [readZerosMembers, GoodMembers]
    exact ⟨readZeros_good v h.1, readZerosMembers_good ms h.2⟩

end

/-- Integers are never negative zero. -/
theorem ofInt_dropNegZero (n : Int) : (ofInt n).dropNegZero = ofInt n := by
  unfold Decimal.dropNegZero
  split
  · next h =>
    have hs := (ofInt_spec n).2.1
    rw [h, Nat.zero_mul] at hs
    have h0 : n = 0 := Int.natAbs_eq_zero.mp hs.symm
    subst h0
    decide
  · rfl

mutual

/-- Tags hold no negative zero, so reading zeros and encoding commute. -/
theorem readZeros_encode : ∀ v : Value, readZeros (encode v) = encode (readZeros v)
  | .undefined | .null | .bool _ | .str _ | .num (.finite _) | .regexp _ | .binary _ => rfl
  | .date none => rfl
  | .num .nan => by simp only [encode, readZeros, readZerosMembers, ofInt_dropNegZero]
  | .num (.infinity _) => by simp only [encode, readZeros, readZerosMembers, ofInt_dropNegZero]
  | .date (some t) => by
    simp only [encode, getTime, readZeros, readZerosMembers, ofInt_dropNegZero]
  | .arr xs => by rw [encode, readZeros, readZerosElems_encode xs, readZeros, encode]
  | .obj ms => by
    rw [encode, readZeros, encode, tagged_congr (readZerosMembers_keys ms),
      ← readZerosMembers_encode ms]
    split
    · simp only [readZeros, readZerosMembers]
    · rw [readZeros]

theorem readZerosElems_encode : ∀ xs : List Value,
    readZerosElems (encodeElems xs) = encodeElems (readZerosElems xs)
  | [] => rfl
  | x :: xs => by
    simp only [encodeElems, readZerosElems, readZeros_encode x, readZerosElems_encode xs]

theorem readZerosMembers_encode : ∀ ms : List (Text × Value),
    readZerosMembers (encodeMembers ms) = encodeMembers (readZerosMembers ms)
  | [] => rfl
  | (k, v) :: ms => by
    simp only [encodeMembers, readZerosMembers, readZeros_encode v, readZerosMembers_encode ms]

end

mutual

theorem ofJson_dropNegZero : ∀ j : Json, ofJson (dropNegZero j) = readZeros (ofJson j)
  | .null | .bool _ | .num _ | .str _ => rfl
  | .arr xs => by rw [dropNegZero, ofJson, ofJsonElems_dropNegZero xs, ofJson, readZeros]
  | .obj ms => by rw [dropNegZero, ofJson, ofJsonMembers_dropNegZero ms, ofJson, readZeros]

theorem ofJsonElems_dropNegZero : ∀ xs : List Json,
    ofJsonElems (dropNegZeroElems xs) = readZerosElems (ofJsonElems xs)
  | [] => rfl
  | x :: xs => by
    simp only [dropNegZeroElems, ofJsonElems, readZerosElems, ofJson_dropNegZero x,
      ofJsonElems_dropNegZero xs]

theorem ofJsonMembers_dropNegZero : ∀ ms : List (Text × Json),
    ofJsonMembers (dropNegZeroMembers ms) = readZerosMembers (ofJsonMembers ms)
  | [] => rfl
  | (k, v) :: ms => by
    simp only [dropNegZeroMembers, ofJsonMembers, readZerosMembers, ofJson_dropNegZero v,
      ofJsonMembers_dropNegZero ms]

end

/-- **EJSON round trip.** Every value of the domain comes back from its JSON
form, its JSON form is plain JSON, and the text of it parses back to the value,
with negative zeros read as zeros. -/
theorem ejson_round_trip (rt : Runtime) (v : Value) (h : Good rt v) :
    fromJSONValue rt (toJSONValue rt v) = .ok v ∧
      (∃ text, ejsonStringify rt v = some text ∧ ejsonParse rt text = .ok (readZeros v)) ∧
      ∃ j, toJSONValue rt v = ofJson j := by
  have he := @toJSONValue_eq_encode rt v (quiet_of_good v h)
  obtain ⟨j, hj, ho, hw⟩ := encode_plain v (quiet_of_good v h)
  refine ⟨by rw [he, fromJSONValue_encode h], ⟨stringify j, ?_, ?_⟩, j, by rw [he, ho]⟩
  · rw [ejsonStringify, he, hj, Option.map_some]
  · rw [ejsonParse, parse_stringify hw]
    simp only [ofJson_dropNegZero, ho, readZeros_encode]
    exact fromJSONValue_encode (readZeros_good v h)

/-- A runtime without custom types in which every pattern is its own source. -/
def plainRuntime : Runtime :=
  ⟨fun _ => .nan, fun source flags => some ⟨source, flags⟩, fun _ => none⟩

/-- A tag look-alike that holds every kind of value. -/
def lookAlike : Value :=
  .obj [(js "$escape", .arr [.obj [(js "$date", .date (some 7))], .num .nan,
    .regexp ⟨js "a", js "gi"⟩, .binary [1, 2], .obj [(js "$type", .null), (js "$value", .null)]])]

theorem ejson_round_trip_lookAlike : Good plainRuntime lookAlike ∧
    fromJSONValue plainRuntime (toJSONValue plainRuntime lookAlike) = .ok lookAlike := by
  have h : Good plainRuntime lookAlike := by
    simp only [lookAlike, Good, GoodElems, GoodMembers, List.map_cons, List.map_nil, FlagsOk]
    refine ⟨by decide, by decide, ⟨⟨by decide, by decide, ⟨7, rfl, by decide⟩, trivial⟩, trivial,
      ⟨by decide, rfl⟩, trivial, ⟨by decide, by decide, trivial, trivial, trivial⟩, trivial⟩,
      trivial⟩
  exact ⟨h, (ejson_round_trip plainRuntime lookAlike h).1⟩

end TypeFerry.Ejson.RoundTrip
