import TypeFerry.Ejson.Convert

/-! # The JSON form of a value

`encode` says what the JSON form of a value is, by recursion on the value
alone: dates, regular expressions, non-finite numbers and binaries become
their tags, and an object that has the shape of a tag is wrapped in `$escape`.
On every value that `clone` leaves alone (`Quiet`) the code computes it
(`toJSONValue_eq_encode`). -/
namespace TypeFerry.Ejson.Encode
open TypeFerry.Lib.Numeral TypeFerry.Lib.JsonText TypeFerry.Ejson.Clone TypeFerry.Ejson.Base64
open TypeFerry.Ejson.Convert

/-! ## The domain -/

/-- An object that `clone` takes for something else than a plain one, or that loses a
key when it is rebuilt. -/
def isForeign (ms : List (Text × Value)) : Bool :=
  isObjectIdLike ms || isHydrated ms || isArguments ms || hasOwn ms (js "__proto__")

mutual

/-- No `undefined`, no invalid date, and only objects with distinct keys that are not
foreign. -/
def Quiet : Value → Prop
  | .undefined => False
  | .date t => t.isSome = true
  | .arr xs => QuietElems xs
  | .obj ms => (ms.map Prod.fst).Nodup ∧ isForeign ms = false ∧ QuietMembers ms
  | _ => True

def QuietElems : List Value → Prop
  | [] => True
  | x :: xs => Quiet x ∧ QuietElems xs

def QuietMembers : List (Text × Value) → Prop
  | [] => True
  | (_, v) :: ms => Quiet v ∧ QuietMembers ms

end

/-! ## The encoding -/

/-- An object that reads as a tag. -/
def tagged (ms : List (Text × Value)) : Bool :=
  builtinConverters.any fun c => c.matchJSONValue (.obj ms)

mutual

/-- The JSON form of a value. -/
def encode : Value → Value
  | .num .nan => .obj [(js "$InfNaN", .num (.finite (ofInt 0)))]
  | .num (.infinity neg) => .obj [(js "$InfNaN", .num (.finite (ofInt (if neg then -1 else 1))))]
  | .date t => .obj [(js "$date", .num (getTime t))]
  | .regexp r => .obj [(js "$regexp", .str r.source), (js "$flags", .str r.flags)]
  | .binary bytes => .obj [(js "$binary", .str (encodeBase64 bytes))]
  | .arr xs => .arr (encodeElems xs)
  | .obj ms =>
    if tagged ms then .obj [(js "$escape", .obj (encodeMembers ms))] else .obj (encodeMembers ms)
  | v => v

def encodeElems : List Value → List Value
  | [] => []
  | x :: xs => encode x :: encodeElems xs

def encodeMembers : List (Text × Value) → List (Text × Value)
  | [] => []
  | (k, v) :: ms => (k, encode v) :: encodeMembers ms

end

/-! ## Own properties -/

theorem hasOwn_iff (ms : List (Text × Value)) (k : Text) :
    hasOwn ms k = true ↔ k ∈ ms.map Prod.fst := by
  induction ms with
  | nil => simp [hasOwn, getOwn]
  | cons m ms ih =>
    obtain ⟨k', v⟩ := m
    simp only [hasOwn, getOwn, List.lookup_cons, List.map_cons, List.mem_cons] at ih ⊢
    by_cases h : k = k'
    · simp [h]
    · rw [beq_false_of_ne h, ih]
      simp [h]

theorem getOwn_none {ms : List (Text × Value)} {k : Text} (h : k ∉ ms.map Prod.fst) :
    getOwn k ms = none := by
  have := mt (hasOwn_iff ms k).mp h
  simpa [hasOwn] using this

theorem mem_of_getOwn {k : Text} {v : Value} : ∀ {ms : List (Text × Value)},
    getOwn k ms = some v → (k, v) ∈ ms
  | (k', v') :: ms, h => by
    rw [getOwn, List.lookup_cons] at h
    by_cases hk : k = k'
    · subst hk
      simp only [beq_self_eq_true] at h
      cases h
      exact List.mem_cons_self ..
    · rw [beq_false_of_ne hk] at h
      exact List.mem_cons_of_mem _ (mem_of_getOwn h)

theorem getOwn_of_mem {k : Text} {v : Value} : ∀ {ms : List (Text × Value)},
    (ms.map Prod.fst).Nodup → (k, v) ∈ ms → getOwn k ms = some v
  | (k', v') :: ms, hn, h => by
    obtain ⟨hnot, hnd⟩ := List.nodup_cons.mp hn
    rw [getOwn, List.lookup_cons]
    rcases List.mem_cons.mp h with h | h
    · cases h
      simp
    · have hk : k ≠ k' := fun hk => hnot (hk ▸ List.mem_map.mpr ⟨(k, v), h, rfl⟩)
      rw [beq_false_of_ne hk]
      exact getOwn_of_mem hnd h

theorem mem_setMember {k : Text} {v : Value} {m : Text × Value} : ∀ {ms : List (Text × Value)},
    m ∈ setMember k v ms → m ∈ ms ∨ m = (k, v)
  | [], h => .inr (List.mem_singleton.mp h)
  | (k', v') :: ms, h => by
    rw [setMember] at h
    split at h
    · next hk =>
      rcases List.mem_cons.mp h with h | h
      · exact .inr (by rw [h, hk])
      · exact .inl (List.mem_cons_of_mem _ h)
    · rcases List.mem_cons.mp h with h | h
      · exact .inl (by rw [h]; exact List.mem_cons_self ..)
      · exact (mem_setMember h).imp_left (List.mem_cons_of_mem _)

theorem mem_assign {k : Text} {v : Value} {m : Text × Value} {ms : List (Text × Value)}
    (h : m ∈ assign k v ms) : m ∈ ms ∨ m = (k, v) ∧ k ≠ js "__proto__" := by
  unfold assign at h
  split at h
  · exact .inl h
  · next hk => exact (mem_setMember h).imp_right fun hm => ⟨hm, hk⟩

/-- An object that is rebuilt has only members that it had, and none of them is its
prototype. -/
theorem mem_rebuilt {m : Text × Value} : ∀ {ms acc : List (Text × Value)},
    m ∈ ms.foldl (fun ret m => assign m.1 m.2 ret) acc → m ∈ acc ∨ m ∈ ms ∧ m.1 ≠ js "__proto__"
  | [], _, h => .inl h
  | (k, v) :: ms, acc, h => by
    rcases @mem_rebuilt m ms _ h with h | ⟨h, hne⟩
    · refine (mem_assign h).imp_right fun ⟨hm, hk⟩ => ?_
      rw [hm]
      exact ⟨List.mem_cons_self .., hk⟩
    · exact .inr ⟨List.mem_cons_of_mem _ h, hne⟩

/-- Whether a converter matches depends on the keys only. -/
theorem matchJSONValue_congr {ms ms' : List (Text × Value)}
    (h : ms.map Prod.fst = ms'.map Prod.fst) (c : Converter) :
    c.matchJSONValue (.obj ms) = c.matchJSONValue (.obj ms') := by
  have hown : hasOwn ms = hasOwn ms' := by
    funext k
    rw [Bool.eq_iff_iff, hasOwn_iff, hasOwn_iff, h]
  have hlen : ms.length = ms'.length := by simpa using congrArg List.length h
  simp only [Converter.matchJSONValue, hown, hlen]

theorem tagged_congr {ms ms' : List (Text × Value)} (h : ms.map Prod.fst = ms'.map Prod.fst) :
    tagged ms = tagged ms' := by
  simp only [tagged, matchJSONValue_congr h]

theorem tagged_length {ms : List (Text × Value)} (h : tagged ms = true) :
    ms.length = 1 ∨ ms.length = 2 := by
  simp only [tagged, List.any_eq_true] at h
  obtain ⟨c, _, hc⟩ := h
  simp only [Converter.matchJSONValue, Bool.and_eq_true, beq_iff_eq] at hc
  cases c <;> simp only [Converter.tagKeys, List.length_cons, List.length_nil] at hc <;> omega

/-- Building an object key by key keeps its members. -/
theorem foldl_assign (f : Value → Value) : ∀ (ms acc : List (Text × Value)),
    (acc.map Prod.fst ++ ms.map Prod.fst).Nodup → js "__proto__" ∉ ms.map Prod.fst →
    ms.foldl (fun ret m => assign m.1 (f m.2) ret) acc = acc ++ ms.map fun m => (m.1, f m.2)
  | [], acc, _, _ => by simp
  | (k, v) :: ms, acc, hn, hp => by
    simp only [List.map_cons, List.mem_cons, not_or] at hp
    have hk : k ∉ acc.map Prod.fst := fun h =>
      (List.nodup_append.mp hn).2.2 k h k (by simp) rfl
    rw [List.foldl_cons, assign, if_neg (Ne.symm hp.1), setMember_fresh hk,
      foldl_assign f ms _ (by simpa using hn) hp.2]
    simp

/-! ## Cloning -/

theorem isForeign_eq_false {ms : List (Text × Value)} : isForeign ms = false ↔
    ((isObjectIdLike ms = false ∧ isHydrated ms = false) ∧ isArguments ms = false) ∧
      js "__proto__" ∉ ms.map Prod.fst := by
  rw [isForeign, Bool.or_eq_false_iff, Bool.or_eq_false_iff, Bool.or_eq_false_iff, ← hasOwn_iff,
    Bool.not_eq_true]

mutual

theorem clone_quiet (rt : Runtime) : ∀ v : Value, Quiet v → clone rt v = v
  | .undefined, h => h.elim
  | .null, _ | .bool _, _ | .num _, _ | .str _, _ | .date _, _ | .regexp _, _ | .binary _, _ => rfl
  | .arr xs, h => by
    rw [Quiet] at h
    rw [clone, cloneElems_quiet rt xs h, dropUndefined_quiet xs h]
  | .obj ms, h => by
    rw [Quiet] at h
    obtain ⟨hn, hf, hg⟩ := h
    obtain ⟨⟨⟨h1, h2⟩, h3⟩, hp⟩ := isForeign_eq_false.mp hf
    rw [clone, h1, h2, h3, cloneMembers_quiet rt ms hg]
    have := foldl_assign id ms [] (by simpa using hn) hp
    simpa using this

theorem cloneElems_quiet (rt : Runtime) : ∀ xs : List Value, QuietElems xs → cloneElems rt xs = xs
  | [], _ => by rw [cloneElems]
  | x :: xs, h => by
    rw [QuietElems] at h
    rw [cloneElems, clone_quiet rt x h.1, cloneElems_quiet rt xs h.2]

theorem cloneMembers_quiet (rt : Runtime) : ∀ ms : List (Text × Value), QuietMembers ms →
    cloneMembers rt ms = ms
  | [], _ => by rw [cloneMembers]
  | (k, v) :: ms, h => by
    rw [QuietMembers] at h
    rw [cloneMembers, clone_quiet rt v h.1, cloneMembers_quiet rt ms h.2]

theorem dropUndefined_quiet : ∀ xs : List Value, QuietElems xs →
    dropUndefined xs = xs
  | [], _ => rfl
  | x :: xs, h => by
    rw [QuietElems] at h
    have hx : (!x.isUndefined) = true := by
      cases x with
      | undefined => exact h.1.elim
      | _ => rfl
    have ih := dropUndefined_quiet xs h.2
    simp only [dropUndefined] at ih ⊢
    simp only [List.filter_cons, hx, if_true, ih]

end

/-! ## To JSON -/

theorem encodeMembers_eq : ∀ ms : List (Text × Value),
    encodeMembers ms = ms.map fun m => (m.1, encode m.2)
  | [] => rfl
  | (k, v) :: ms => by rw [encodeMembers, encodeMembers_eq ms, List.map_cons]

theorem encodeMembers_keys (ms : List (Text × Value)) :
    (encodeMembers ms).map Prod.fst = ms.map Prod.fst := by
  rw [encodeMembers_eq, List.map_map]; rfl

theorem quiet_of_mem : ∀ {ms : List (Text × Value)}, QuietMembers ms →
    ∀ m ∈ ms, Quiet m.2
  | (k, v) :: ms, h, m, hm => by
    rw [QuietMembers] at h
    rcases List.mem_cons.mp hm with rfl | hm
    · exact h.1
    · exact quiet_of_mem h.2 m hm

theorem depth_of_mem : ∀ {ms : List (Text × Value)}, ∀ m ∈ ms, depth m.2 ≤ depthMembers ms
  | (k, v) :: ms, m, hm => by
    rw [depthMembers]
    rcases List.mem_cons.mp hm with rfl | hm
    · exact Nat.le_max_left _ _
    · exact Nat.le_trans (depth_of_mem m hm) (Nat.le_max_right _ _)

/-- What the converters make of a plain object: its escape, if it reads as a
tag. -/
theorem toJSONValueHelper_obj (rec : Value → Value) (ms : List (Text × Value)) :
    toJSONValueHelper rec (.obj ms) =
      if tagged ms then some (Converter.toJSONValue rec .escape (.obj ms)) else none := by
  have hm : Converter.matchObject .escape (.obj ms) = tagged ms := by
    by_cases h : tagged ms = true
    · have hl : (ms.length == 1 || ms.length == 2) = true := by
        rcases tagged_length h with h | h <;> simp [h]
      simp only [Converter.matchObject, hl, Bool.true_and, tagged]
    · simp only [Converter.matchObject, tagged, Bool.not_eq_true] at h ⊢
      rw [h, Bool.and_false]
  have h1 : Converter.matchObject .date (.obj ms) = false := rfl
  have h2 : Converter.matchObject .regexp (.obj ms) = false := rfl
  have h3 : Converter.matchObject .infNaN (.obj ms) = false := rfl
  have h4 : Converter.matchObject .binary (.obj ms) = false := rfl
  have h5 : Converter.matchObject .custom (.obj ms) = false := rfl
  simp only [toJSONValueHelper, builtinConverters, List.find?_cons, h1, h2, h3, h4, h5, hm]
  cases tagged ms <;> rfl

theorem escape_quiet {rec : Value → Value} {ms : List (Text × Value)}
    (hrec : ∀ x, Quiet x → depth x ≤ depthMembers ms → rec x = encode x)
    (hg : Quiet (.obj ms)) :
    Converter.toJSONValue rec .escape (.obj ms) = .obj [(js "$escape", .obj (encodeMembers ms))] := by
  rw [Quiet] at hg
  obtain ⟨hn, hf, hm⟩ := hg
  have hp := (isForeign_eq_false.mp hf).2
  rw [Converter.toJSONValue, foldl_assign rec ms [] (by simpa using hn) hp, List.nil_append,
    encodeMembers_eq]
  congr 4
  apply List.map_congr_left
  intro m hmem
  rw [hrec m.2 (quiet_of_mem hm m hmem) (depth_of_mem m hmem)]

/-- An atom that is passed over is its own encoding. -/
theorem child_eq_encode {rec : Value → Value} {x : Value}
    (h : (toJSONValueHelper rec x).getD (adjustTypesToJSONValue rec x) = encode x) :
    (if isPlainAtom x then x
      else (toJSONValueHelper rec x).getD (adjustTypesToJSONValue rec x)) = encode x := by
  split
  · next ha =>
    match x, ha with
    | .bool _, _ | .str _, _ | .num (.finite _), _ => rfl
  · exact h

mutual

theorem helper_or_adjust {rec : Value → Value} {n : Nat}
    (hrec : ∀ x, Quiet x → depth x < n → rec x = encode x) : ∀ v : Value, Quiet v →
    depth v ≤ n → (toJSONValueHelper rec v).getD (adjustTypesToJSONValue rec v) = encode v
  | .undefined, h, _ => h.elim
  | .null, _, _ | .bool _, _, _ | .num (.finite _), _, _ | .num .nan, _, _
  | .num (.infinity _), _, _ | .str _, _, _ | .date _, _, _ | .regexp _, _, _
  | .binary _, _, _ => rfl
  | .arr xs, h, hd => by
    rw [Quiet] at h
    rw [depth] at hd
    have hh : toJSONValueHelper rec (.arr xs) = none := rfl
    rw [hh, Option.getD_none, adjustTypesToJSONValue, hh, Option.getD_none, encode,
      adjustElemsTo_encode hrec xs h (by omega)]
  | .obj ms, h, hd => by
    have hg := h
    rw [Quiet] at h
    rw [depth] at hd
    rw [adjustTypesToJSONValue, toJSONValueHelper_obj, encode]
    split
    · exact escape_quiet (fun x hx hdx => hrec x hx (by omega)) hg
    · rw [Option.getD_none, Option.getD_none, adjustMembersTo_encode hrec ms h.2.2 (by omega)]

theorem adjustElemsTo_encode {rec : Value → Value} {n : Nat}
    (hrec : ∀ x, Quiet x → depth x < n → rec x = encode x) : ∀ xs : List Value,
    QuietElems xs → depthElems xs ≤ n → adjustElemsTo rec xs = encodeElems xs
  | [], _, _ => rfl
  | x :: xs, h, hd => by
    rw [QuietElems] at h
    rw [depthElems, Nat.max_le] at hd
    rw [adjustElemsTo, child_eq_encode (helper_or_adjust hrec x h.1 hd.1),
      adjustElemsTo_encode hrec xs h.2 hd.2, encodeElems]

theorem adjustMembersTo_encode {rec : Value → Value} {n : Nat}
    (hrec : ∀ x, Quiet x → depth x < n → rec x = encode x) : ∀ ms : List (Text × Value),
    QuietMembers ms → depthMembers ms ≤ n → adjustMembersTo rec ms = encodeMembers ms
  | [], _, _ => rfl
  | (k, x) :: ms, h, hd => by
    rw [QuietMembers] at h
    rw [depthMembers, Nat.max_le] at hd
    rw [adjustMembersTo, child_eq_encode (helper_or_adjust hrec x h.1 hd.1),
      adjustMembersTo_encode hrec ms h.2 hd.2, encodeMembers]

end

theorem toJSONValueFuel_eq {rt : Runtime} : ∀ (n : Nat) (v : Value), Quiet v → depth v < n →
    toJSONValueFuel rt n v = encode v
  | 0, _, _, h => absurd h (Nat.not_lt_zero _)
  | n + 1, v, hg, h => by
    have hv := helper_or_adjust (@toJSONValueFuel_eq rt n) v hg (by omega)
    rw [toJSONValueFuel]
    cases hh : toJSONValueHelper (toJSONValueFuel rt n) v with
    | some changed => simpa [hh] using hv
    | none =>
      rw [hh, Option.getD_none] at hv
      simp only [clone_quiet rt v hg, adjustedTo, hh, hv]
      split
      · rfl
      · cases v <;> first | rfl | simp_all [Value.isObject]
        rename_i n; cases n <;> first | rfl | cases hh

/-- **The code computes the encoding.** -/
theorem toJSONValue_eq_encode {rt : Runtime} {v : Value} (h : Quiet v) :
    toJSONValue rt v = encode v :=
  toJSONValueFuel_eq (depth v + 1) v h (Nat.lt_succ_self _)

/-! ## Plain JSON -/

mutual

/-- The encoding is plain JSON, and well formed. -/
theorem encode_plain : ∀ v : Value, Quiet v →
    ∃ j, toJson? (encode v) = some j ∧ ofJson j = encode v ∧ WF j
  | .undefined, h => h.elim
  | .null, _ => ⟨.null, rfl, rfl, trivial⟩
  | .bool b, _ => ⟨.bool b, rfl, rfl, trivial⟩
  | .num (.finite d), _ => ⟨.num d, rfl, rfl, trivial⟩
  | .str s, _ => ⟨.str s, rfl, rfl, trivial⟩
  | .num .nan, _ => ⟨.obj [(js "$InfNaN", .num (ofInt 0))], rfl, rfl, by
      simp [WF, WFMembers]⟩
  | .num (.infinity neg), _ => ⟨.obj [(js "$InfNaN", .num (ofInt (if neg then -1 else 1)))], rfl,
      rfl, by simp [WF, WFMembers]⟩
  | .date t, h => by
    obtain ⟨n, rfl⟩ := Option.isSome_iff_exists.mp h
    exact ⟨.obj [(js "$date", .num (ofInt n))], rfl, rfl, by simp [WF, WFMembers]⟩
  | .regexp r, _ => ⟨.obj [(js "$regexp", .str r.source), (js "$flags", .str r.flags)], rfl, rfl, by
      simp only [WF, WFMembers, List.map_cons, List.map_nil]; decide⟩
  | .binary b, _ => ⟨.obj [(js "$binary", .str (encodeBase64 b))], rfl, rfl, by
      simp [WF, WFMembers]⟩
  | .arr xs, h => by
    rw [Quiet] at h
    obtain ⟨js', hj, ho, hw⟩ := encodeElems_plain xs h
    exact ⟨.arr js', by rw [encode, toJson?, hj]; rfl, by rw [ofJson, ho, encode], hw⟩
  | .obj ms, h => by
    rw [Quiet] at h
    obtain ⟨js', hj, ho, hw, hk⟩ := encodeMembers_plain ms h.2.2
    have hn : (js'.map Prod.fst).Nodup := hk ▸ h.1
    rw [encode]
    split
    · exact ⟨.obj [(js "$escape", .obj js')], by simp only [toJson?, toJsonMembers?, hj]; rfl,
        by simp only [ofJson, ofJsonMembers, ho], by simp [WF, WFMembers, hn, hw]⟩
    · exact ⟨.obj js', by rw [toJson?, hj]; rfl, by rw [ofJson, ho], ⟨hn, hw⟩⟩

theorem encodeElems_plain : ∀ xs : List Value, QuietElems xs →
    ∃ js', toJsonElems? (encodeElems xs) = some js' ∧ ofJsonElems js' = encodeElems xs ∧ WFElems js'
  | [], _ => ⟨[], rfl, rfl, trivial⟩
  | x :: xs, h => by
    rw [QuietElems] at h
    obtain ⟨j, hj, ho, hw⟩ := encode_plain x h.1
    obtain ⟨js', hjs, hos, hws⟩ := encodeElems_plain xs h.2
    exact ⟨j :: js', by simp only [encodeElems, toJsonElems?, hj, hjs]; rfl,
      by rw [ofJsonElems, ho, hos, encodeElems], ⟨hw, hws⟩⟩

theorem encodeMembers_plain : ∀ ms : List (Text × Value), QuietMembers ms →
    ∃ js', toJsonMembers? (encodeMembers ms) = some js' ∧ ofJsonMembers js' = encodeMembers ms ∧
      WFMembers js' ∧ js'.map Prod.fst = ms.map Prod.fst
  | [], _ => ⟨[], rfl, rfl, trivial, rfl⟩
  | (k, v) :: ms, h => by
    rw [QuietMembers] at h
    obtain ⟨j, hj, ho, hw⟩ := encode_plain v h.1
    obtain ⟨js', hjs, hos, hws, hk⟩ := encodeMembers_plain ms h.2
    exact ⟨(k, j) :: js', by simp only [encodeMembers, toJsonMembers?, hj, hjs]; rfl,
      by rw [ofJsonMembers, ho, hos, encodeMembers], ⟨hw, hws⟩, by
      rw [List.map_cons, List.map_cons, hk]⟩

end

end TypeFerry.Ejson.Encode
