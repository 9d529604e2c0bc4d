import TypeFerry.Ejson.RoundTrip

/-! # EJSON and plain JSON

On JSON without tags `EJSON.parse` should be `JSON.parse`. It clones what it has
parsed before it looks for tags, and `clone` takes some objects for something
else by their keys alone. An object that it takes so never comes out as it was:
it becomes a text or an array, loses its key `__proto__`, or is replaced by one of
its own members, which is less deep. -/
namespace TypeFerry.Ejson.Transparent
open TypeFerry.Lib.Numeral TypeFerry.Lib.JsonText TypeFerry.Ejson.Clone
open TypeFerry.Ejson.Convert TypeFerry.Ejson.Encode TypeFerry.Ejson.RoundTrip

/-! ## JSON values -/

mutual

/-- A value that JSON can write. -/
def Plain : Value → Prop
  | .null | .bool _ | .num (.finite _) | .str _ => True
  | .arr xs => PlainElems xs
  | .obj ms => PlainMembers ms
  | _ => False

def PlainElems : List Value → Prop
  | [] => True
  | x :: xs => Plain x ∧ PlainElems xs

def PlainMembers : List (Text × Value) → Prop
  | [] => True
  | (_, v) :: ms => Plain v ∧ PlainMembers ms

end

mutual

/-- No object has the shape of a tag. -/
def Untagged : Value → Prop
  | .arr xs => UntaggedElems xs
  | .obj ms => tagged ms = false ∧ UntaggedMembers ms
  | _ => True

def UntaggedElems : List Value → Prop
  | [] => True
  | x :: xs => Untagged x ∧ UntaggedElems xs

def UntaggedMembers : List (Text × Value) → Prop
  | [] => True
  | (_, v) :: ms => Untagged v ∧ UntaggedMembers ms

end

/-- The factories of custom types give instances, which no JSON writes. -/
def GivesInstances (rt : Runtime) : Prop :=
  ∀ typeName factory x v, rt.customTypes typeName = some factory → factory x = .ok v → ¬ Plain v

theorem plainMembers_iff {ms : List (Text × Value)} : PlainMembers ms ↔ ∀ m ∈ ms, Plain m.2 := by
  induction ms with
  | nil => simp [PlainMembers]
  | cons m ms ih => simp [PlainMembers, ih]

theorem plainElems_iff {xs : List Value} : PlainElems xs ↔ ∀ x ∈ xs, Plain x := by
  induction xs with
  | nil => simp [PlainElems]
  | cons x xs ih => simp [PlainElems, ih]

theorem depthMembers_le {n : ℕ} {ms : List (Text × Value)} :
    depthMembers ms ≤ n ↔ ∀ m ∈ ms, depth m.2 ≤ n := by
  induction ms with
  | nil => simp [depthMembers]
  | cons m ms ih => simp [depthMembers, ih]

theorem depthElems_le {n : ℕ} {xs : List Value} : depthElems xs ≤ n ↔ ∀ x ∈ xs, depth x ≤ n := by
  induction xs with
  | nil => simp [depthElems]
  | cons x xs ih => simp [depthElems, ih]

/-! ## How deep a clone is -/

theorem cloneMembers_eq (rt : Runtime) (ms : List (Text × Value)) :
    cloneMembers rt ms = ms.map fun m => (m.1, clone rt m.2) := by
  induction ms with
  | nil => rfl
  | cons m ms ih => rw [cloneMembers, ih, List.map_cons]

theorem cloneElems_eq (rt : Runtime) (xs : List Value) : cloneElems rt xs = xs.map (clone rt) := by
  induction xs with
  | nil => rfl
  | cons x xs ih => rw [cloneElems, ih, List.map_cons]

theorem cloneMember_eq (rt : Runtime) (k : Text) (ms : List (Text × Value)) :
    cloneMember rt k ms = ((getOwn k ms).map (clone rt)).getD .undefined := by
  induction ms with
  | nil => rfl
  | cons m ms ih =>
    obtain ⟨k', v⟩ := m
    rw [cloneMember, getOwn, List.lookup_cons]
    by_cases hk : k' = k
    · simp [hk]
    · rw [if_neg hk, beq_false_of_ne (Ne.symm hk)]
      exact ih

/-- The member that a hydrated document is cloned through. -/
theorem doc_of_hydrated {ms : List (Text × Value)} (h : isHydrated ms = true) :
    ∃ d, getOwn (js "_doc") ms = some d := by
  cases hd : getOwn (js "_doc") ms with
  | some d => exact ⟨d, rfl⟩
  | none => simp [isHydrated, hd, Value.isObjectAndNotNull, Value.isObject] at h

/-- What an object is cloned to. -/
inductive ClonesTo (rt : Runtime) (ms : List (Text × Value)) : Value → Prop where
  | text (h : isObjectIdLike ms = true) : ClonesTo rt ms (.str (js "[object Object]"))
  | document (d : Value) (h : isHydrated ms = true) (hd : (js "_doc", d) ∈ ms) :
      ClonesTo rt ms (clone rt d)
  | array (ys : List Value) (h : isArguments ms = true)
      (hys : ∀ y ∈ ys, ∃ m ∈ ms, y = clone rt m.2) : ClonesTo rt ms (.arr ys)
  | object (h : isObjectIdLike ms = false ∧ isHydrated ms = false ∧ isArguments ms = false) :
      ClonesTo rt ms (.obj ((cloneMembers rt ms).foldl (fun ret m => assign m.1 m.2 ret) []))

theorem clonesTo (rt : Runtime) (ms : List (Text × Value)) : ClonesTo rt ms (clone rt (.obj ms)) := by
  rw [clone]
  split
  · next h => exact .text h
  · next h₁ =>
    split
    · next h =>
      obtain ⟨d, hd⟩ := doc_of_hydrated h
      rw [cloneMember_eq, hd]
      exact .document d h (mem_of_getOwn hd)
    · next h₂ =>
      split
      · next h =>
        refine .array _ h fun y hy => ?_
        obtain ⟨hin, hdef⟩ := List.mem_filter.mp hy
        obtain ⟨i, -, rfl⟩ := List.mem_map.mp hin
        cases ho : getOwn (indexText i) (cloneMembers rt ms) with
        | none => rw [ho] at hdef; cases hdef
        | some y =>
          have hm := mem_of_getOwn ho
          rw [cloneMembers_eq] at hm
          obtain ⟨m, hm, heq⟩ := List.mem_map.mp hm
          exact ⟨m, hm, (congrArg Prod.snd heq).symm⟩
      · next h₃ => exact .object ⟨by simpa using h₁, by simpa using h₂, by simpa using h₃⟩

mutual

/-- A clone of JSON is JSON, and not deeper. -/
theorem clone_plain (rt : Runtime) : ∀ v : Value, Plain v →
    Plain (clone rt v) ∧ depth (clone rt v) ≤ depth v
  | .null, _ | .bool _, _ | .num (.finite _), _ | .str _, _ => ⟨trivial, Nat.le_refl _⟩
  | .arr xs, h => by
    have hx := cloneElems_plain rt xs h
    rw [clone, cloneElems_eq]
    refine ⟨plainElems_iff.mpr fun y hy => ?_, Nat.add_le_add_left (depthElems_le.mpr fun y hy => ?_) 1⟩
    · obtain ⟨x, hx', rfl⟩ := List.mem_map.mp (List.mem_filter.mp hy).1
      exact (hx x hx').1
    · obtain ⟨x, hx', rfl⟩ := List.mem_map.mp (List.mem_filter.mp hy).1
      exact (hx x hx').2
  | .obj ms, h => by
    have hm := cloneMembers_plain rt ms h
    have hc := clonesTo rt ms
    generalize clone rt (.obj ms) = c at hc ⊢
    cases hc with
    | text _ => exact ⟨trivial, Nat.zero_le _⟩
    | document d _ hd =>
      obtain ⟨h₁, h₂⟩ := hm _ hd
      exact ⟨h₁, Nat.le_trans h₂ (Nat.le_add_left _ _)⟩
    | array ys _ hys =>
      refine ⟨plainElems_iff.mpr fun y hy => ?_, Nat.add_le_add_left (depthElems_le.mpr fun y hy => ?_) 1⟩
      · obtain ⟨m, hin, rfl⟩ := hys y hy
        exact (hm m hin).1
      · obtain ⟨m, hin, rfl⟩ := hys y hy
        exact (hm m hin).2
    | object _ =>
      have hin : ∀ {m}, m ∈ (cloneMembers rt ms).foldl (fun ret m => assign m.1 m.2 ret) [] →
          ∃ m' ∈ ms, m.2 = clone rt m'.2 := by
        intro m hm
        rcases mem_rebuilt hm with hm | ⟨hm, -⟩
        · cases hm
        · rw [cloneMembers_eq] at hm
          obtain ⟨m', hm', rfl⟩ := List.mem_map.mp hm
          exact ⟨m', hm', rfl⟩
      refine ⟨plainMembers_iff.mpr fun m hmem => ?_,
        Nat.add_le_add_left (depthMembers_le.mpr fun m hmem => ?_) 1⟩
      · obtain ⟨m', hm', heq⟩ := hin hmem
        rw [heq]
        exact (hm m' hm').1
      · obtain ⟨m', hm', heq⟩ := hin hmem
        rw [heq]
        exact (hm m' hm').2

theorem cloneElems_plain (rt : Runtime) : ∀ xs : List Value, PlainElems xs →
    ∀ x ∈ xs, Plain (clone rt x) ∧ depth (clone rt x) ≤ depthElems xs
  | [], _, _, hx => by cases hx
  | x :: xs, h, y, hy => by
    rw [depthElems]
    rcases List.mem_cons.mp hy with hyx | hy
    · obtain ⟨h₁, h₂⟩ := clone_plain rt x h.1
      rw [hyx]
      exact ⟨h₁, Nat.le_trans h₂ (Nat.le_max_left _ _)⟩
    · obtain ⟨h₁, h₂⟩ := cloneElems_plain rt xs h.2 y hy
      exact ⟨h₁, Nat.le_trans h₂ (Nat.le_max_right _ _)⟩

theorem cloneMembers_plain (rt : Runtime) : ∀ ms : List (Text × Value), PlainMembers ms →
    ∀ m ∈ ms, Plain (clone rt m.2) ∧ depth (clone rt m.2) ≤ depthMembers ms
  | [], _, _, hm => by cases hm
  | (k, v) :: ms, h, m, hm => by
    rw [depthMembers]
    rcases List.mem_cons.mp hm with hmv | hm
    · obtain ⟨h₁, h₂⟩ := clone_plain rt v h.1
      rw [hmv]
      exact ⟨h₁, Nat.le_trans h₂ (Nat.le_max_left _ _)⟩
    · obtain ⟨h₁, h₂⟩ := cloneMembers_plain rt ms h.2 m hm
      exact ⟨h₁, Nat.le_trans h₂ (Nat.le_max_right _ _)⟩

end

/-! ## How deep a converted value is -/

/-- What becomes of a member or an element: what a converter makes of it, or the
value with its own members adjusted. -/
def child (rt : Runtime) (rec : Value → Except Text Value) (x : Value) : Except Text Value :=
  (fromJSONValueHelper rt rec x).getD (adjustTypesFromJSONValue rt rec x)

section
variable {rt : Runtime} {rec : Value → Except Text Value}

theorem helper_some {x : Value} {r : Except Text Value} (h : fromJSONValueHelper rt rec x = some r) :
    ∃ ms c, x = .obj ms ∧ c.matchJSONValue (.obj ms) = true ∧ r = Converter.fromJSONValue rt rec c ms := by
  unfold fromJSONValueHelper at h
  split at h
  · next ms =>
    split at h
    · obtain ⟨c, hc, rfl⟩ := Option.map_eq_some_iff.mp h
      have hm := List.find?_some hc
      exact ⟨ms, c, rfl, by simpa using hm, rfl⟩
    · cases h
  · cases h

/-- Only the escape converter gives JSON. -/
theorem converts_plain (hrt : GivesInstances rt) {c : Converter} {ms : List (Text × Value)} {v : Value}
    (h : Converter.fromJSONValue rt rec c ms = .ok v) (hv : Plain v) :
    ∃ y entries result, getOwn (js "$escape") ms = some y ∧ requireEntries (some y) = .ok entries ∧
      unescapeEntries rec [] entries = .ok result ∧ v = .obj result := by
  cases c with
  | date =>
    cases h
    exact hv.elim
  | regexp =>
    simp only [Converter.fromJSONValue, bind, Except.bind] at h
    repeat' split at h
    all_goals cases h
    exact hv.elim
  | infNaN =>
    simp only [Converter.fromJSONValue] at h
    cases h
    generalize number rt ((getOwn (js "$InfNaN") ms).getD .undefined) = n at hv
    cases n with
    | finite d =>
      rw [divZero] at hv
      split at hv <;> exact hv.elim
    | nan => exact hv.elim
    | infinity neg => exact hv.elim
  | binary =>
    simp only [Converter.fromJSONValue, bind, Except.bind] at h
    repeat' split at h
    all_goals cases h
    exact hv.elim
  | escape =>
    simp only [Converter.fromJSONValue, bind, Except.bind] at h
    split at h
    · cases h
    · next entries he =>
      split at h
      · cases h
      · next result hr =>
        cases h
        cases hy : getOwn (js "$escape") ms with
        | none => rw [hy] at he; cases he
        | some y => exact ⟨y, entries, result, rfl, by rw [← hy]; exact he, hr, rfl⟩
  | custom =>
    simp only [Converter.fromJSONValue, bind, Except.bind] at h
    split at h
    · cases h
    · split at h
      · next factory hf => exact absurd hv (hrt _ factory _ v hf h)
      · cases h

/-- The members of an object that was escaped. -/
theorem mem_unescaped {m : Text × Value} {entries acc result : List (Text × Value)}
    (h : unescapeEntries rec acc entries = .ok result) (hm : m ∈ result) :
    m ∈ acc ∨ m.1 ≠ js "__proto__" ∧ ∃ e ∈ entries, rec e.2 = .ok m.2 := by
  induction entries generalizing acc with
  | nil =>
    cases h
    exact .inl hm
  | cons entry entries ih =>
    obtain ⟨k, v⟩ := entry
    rw [unescapeEntries] at h
    cases hv : rec v with
    | error e =>
      rw [hv] at h
      cases h
    | ok v' =>
      rw [hv] at h
      rcases ih (show unescapeEntries rec (assign k v' acc) entries = .ok result from h) with hm | ⟨hne, e, he, hr⟩
      · rcases mem_assign hm with hm | ⟨heq, hk⟩
        · exact .inl hm
        · rw [heq]
          exact .inr ⟨hk, (k, v), List.mem_cons_self .., hv⟩
      · exact .inr ⟨hne, e, List.mem_cons_of_mem _ he, hr⟩

/-- The entries of a record that is JSON. -/
theorem entries_plain {y : Value} (hy : Plain y) {entries : List (Text × Value)}
    (h : requireEntries (some y) = .ok entries) :
    ∀ e ∈ entries, Plain e.2 ∧ depth e.2 + 1 ≤ depth y := by
  intro e he
  cases y with
  | obj ms =>
    cases h
    exact ⟨plainMembers_iff.mp hy e he, by
      rw [depth, Nat.add_comm]
      exact Nat.add_le_add_left (depth_of_mem e he) 1⟩
  | arr xs =>
    cases h
    obtain ⟨p, hp, rfl⟩ := List.mem_map.mp he
    have hx : p.1 ∈ xs := List.fst_mem_of_mem_zipIdx hp
    exact ⟨plainElems_iff.mp hy _ hx, by
      rw [depth, Nat.add_comm]
      exact Nat.add_le_add_left (depthElems_le.mp (Nat.le_refl _) _ hx) 1⟩
  | undefined => cases h
  | null => cases h
  | bool b => cases h
  | num n => cases h
  | str t => cases h
  | date t => exact hy.elim
  | regexp r => exact hy.elim
  | binary b => exact hy.elim

/-- Only an object or an array has entries. -/
theorem entries_deep {y : Value} (hy : Plain y) {entries : List (Text × Value)}
    (h : requireEntries (some y) = .ok entries) : 1 ≤ depth y := by
  cases y with
  | obj ms => exact Nat.le_add_right 1 _
  | arr xs => exact Nat.le_add_right 1 _
  | date t => exact hy.elim
  | regexp r => exact hy.elim
  | binary b => exact hy.elim
  | _ => cases h

end

/-- `EJSON.fromJSONValue` does not make JSON deeper. -/
def Shrinks (rec : Value → Except Text Value) : Prop :=
  ∀ y r, Plain y → rec y = .ok r → Plain r → depth r ≤ depth y

section
variable {rt : Runtime} {rec : Value → Except Text Value}

/-- A converted value is less deep than the tag. -/
theorem converts_depth (hrt : GivesInstances rt) (hrec : Shrinks rec) {c : Converter}
    {ms : List (Text × Value)} {r : Value} (hms : PlainMembers ms)
    (h : Converter.fromJSONValue rt rec c ms = .ok r) (hr : Plain r) : depth r < depth (.obj ms) := by
  obtain ⟨y, entries, result, hy, he, hu, rfl⟩ := converts_plain hrt h hr
  have hin : (js "$escape", y) ∈ ms := mem_of_getOwn hy
  have hp : Plain y := plainMembers_iff.mp hms _ hin
  have hdy : depth y ≤ depthMembers ms := depth_of_mem (js "$escape", y) hin
  have hbound : ∀ m ∈ result, depth m.2 + 1 ≤ depth y := by
    intro m hm
    rcases mem_unescaped hu hm with hm' | ⟨-, e, hee, hrec'⟩
    · cases hm'
    · obtain ⟨hpe, hde⟩ := entries_plain hp he e hee
      have hle : depth m.2 ≤ depth e.2 := hrec e.2 m.2 hpe hrec' (plainMembers_iff.mp hr m hm)
      omega
  have hall : depthMembers result ≤ depth y - 1 := depthMembers_le.mpr fun m hm => by
    have := hbound m hm
    omega
  have hone := entries_deep hp he
  rw [depth, depth]
  omega

mutual

theorem child_depth (hrt : GivesInstances rt) (hrec : Shrinks rec) : ∀ (x r : Value), Plain x →
    child rt rec x = .ok r → Plain r → depth r ≤ depth x
  | .null, r, _, h, _ | .bool _, r, _, h, _ | .num (.finite _), r, _, h, _ | .str _, r, _, h, _ => by
    cases h
    exact Nat.le_refl _
  | .arr xs, r, hx, h, hr => by
    have hh : fromJSONValueHelper rt rec (.arr xs) = none := rfl
    simp only [child, hh, Option.getD_none, adjustTypesFromJSONValue, bind, Except.bind] at h
    split at h
    · cases h
    · next ys hys =>
      cases h
      rw [depth, depth]
      exact Nat.add_le_add_left (childElems_depth hrt hrec xs ys hx hys hr) 1
  | .obj ms, r, hx, h, hr => by
    cases hh : fromJSONValueHelper rt rec (.obj ms) with
    | some result =>
      obtain ⟨ms', c, heq, -, rfl⟩ := helper_some hh
      cases heq
      rw [child, hh, Option.getD_some] at h
      exact Nat.le_of_lt (converts_depth hrt hrec hx h hr)
    | none =>
      simp only [child, hh, Option.getD_none, adjustTypesFromJSONValue, bind, Except.bind] at h
      split at h
      · cases h
      · next ns hns =>
        cases h
        rw [depth, depth]
        exact Nat.add_le_add_left (childMembers_depth hrt hrec ms ns hx hns hr) 1

theorem childElems_depth (hrt : GivesInstances rt) (hrec : Shrinks rec) : ∀ (xs ys : List Value),
    PlainElems xs → adjustElemsFrom rt rec xs = .ok ys → PlainElems ys → depthElems ys ≤ depthElems xs
  | [], ys, _, h, _ => by
    cases h
    exact Nat.le_refl _
  | x :: xs, ys, hx, h, hy => by
    simp only [adjustElemsFrom, bind, Except.bind] at h
    split at h
    · cases h
    · next y hxy =>
      split at h
      · cases h
      · next ys' hxs =>
        cases h
        rw [depthElems, depthElems]
        exact max_le_max (child_depth hrt hrec x y hx.1 hxy hy.1)
          (childElems_depth hrt hrec xs ys' hx.2 hxs hy.2)

theorem childMembers_depth (hrt : GivesInstances rt) (hrec : Shrinks rec) :
    ∀ (ms ns : List (Text × Value)), PlainMembers ms → adjustMembersFrom rt rec ms = .ok ns →
      PlainMembers ns → depthMembers ns ≤ depthMembers ms
  | [], ns, _, h, _ => by
    cases h
    exact Nat.le_refl _
  | (k, x) :: ms, ns, hx, h, hy => by
    simp only [adjustMembersFrom, bind, Except.bind] at h
    split at h
    · cases h
    · next y hxy =>
      split at h
      · cases h
      · next ns' hms =>
        cases h
        rw [depthMembers, depthMembers]
        exact max_le_max (child_depth hrt hrec x y hx.1 hxy hy.1)
          (childMembers_depth hrt hrec ms ns' hx.2 hms hy.2)

end

theorem fromJSONValueFuel_shrinks (hrt : GivesInstances rt) : ∀ n, Shrinks (fromJSONValueFuel rt n)
  | 0, y, r, _, h, _ => by
    cases h
    exact Nat.le_refl _
  | n + 1, y, r, hy, h, hr => by
    have ih := fromJSONValueFuel_shrinks hrt n
    rw [fromJSONValueFuel] at h
    split at h
    · next result hh =>
      refine child_depth hrt ih y r hy ?_ hr
      rw [child, hh, Option.getD_some]
      exact h
    · split at h
      · obtain ⟨hp, hd⟩ := clone_plain rt y hy
        unfold adjustedFrom at h
        split at h
        · next result hh =>
          cases result with
          | error e => cases h
          | ok v => cases h; exact hd
        · next hh =>
          refine Nat.le_trans (child_depth hrt ih (clone rt y) r hp ?_ hr) hd
          rw [child, hh, Option.getD_none]
          exact h
      · cases h
        exact Nat.le_refl _

end

/-! ## What stays as it is -/

theorem helper_untagged (rt : Runtime) (rec : Value → Except Text Value) {ms : List (Text × Value)}
    (h : tagged ms = false) : fromJSONValueHelper rt rec (.obj ms) = none := by
  have hnone : builtinConverters.find? (·.matchJSONValue (.obj ms)) = none := by
    rw [List.find?_eq_none]
    intro c hc hm
    have : tagged ms = true := List.any_eq_true.mpr ⟨c, hc, hm⟩
    rw [h] at this
    cases this
  simp only [fromJSONValueHelper, hnone, Option.map_none, ite_self]

mutual

theorem child_untagged (rt : Runtime) (rec : Value → Except Text Value) : ∀ v : Value, Untagged v →
    child rt rec v = .ok v
  | .undefined, _ | .null, _ | .bool _, _ | .num _, _ | .str _, _ | .date _, _ | .regexp _, _
  | .binary _, _ => rfl
  | .arr xs, h => by
    have hh : fromJSONValueHelper rt rec (.arr xs) = none := rfl
    simp only [child, hh, Option.getD_none, adjustTypesFromJSONValue, childElems_untagged rt rec xs h]
    rfl
  | .obj ms, h => by
    have hh := helper_untagged rt rec h.1
    simp only [child, hh, Option.getD_none, adjustTypesFromJSONValue,
      childMembers_untagged rt rec ms h.2]
    rfl

theorem childElems_untagged (rt : Runtime) (rec : Value → Except Text Value) : ∀ xs : List Value,
    UntaggedElems xs → adjustElemsFrom rt rec xs = .ok xs
  | [], _ => rfl
  | x :: xs, h => by
    have hx := child_untagged rt rec x h.1
    rw [child] at hx
    simp only [adjustElemsFrom, hx, childElems_untagged rt rec xs h.2]
    rfl

theorem childMembers_untagged (rt : Runtime) (rec : Value → Except Text Value) :
    ∀ ms : List (Text × Value), UntaggedMembers ms → adjustMembersFrom rt rec ms = .ok ms
  | [], _ => rfl
  | (k, x) :: ms, h => by
    have hx := child_untagged rt rec x h.1
    rw [child] at hx
    simp only [adjustMembersFrom, hx, childMembers_untagged rt rec ms h.2]
    rfl

end

/-! ## What was parsed -/

theorem ofJsonMembers_keys (ms : List (Text × Json)) : (ofJsonMembers ms).map Prod.fst = ms.map Prod.fst := by
  induction ms with
  | nil => rfl
  | cons m ms ih => rw [ofJsonMembers, List.map_cons, List.map_cons, ih]

mutual

theorem ofJson_plain : ∀ j : Json, Plain (ofJson j)
  | .null | .bool _ | .num _ | .str _ => trivial
  | .arr xs => ofJsonElems_plain xs
  | .obj ms => ofJsonMembers_plain ms

theorem ofJsonElems_plain : ∀ xs : List Json, PlainElems (ofJsonElems xs)
  | [] => trivial
  | x :: xs => ⟨ofJson_plain x, ofJsonElems_plain xs⟩

theorem ofJsonMembers_plain : ∀ ms : List (Text × Json), PlainMembers (ofJsonMembers ms)
  | [] => trivial
  | (_, v) :: ms => ⟨ofJson_plain v, ofJsonMembers_plain ms⟩

end

/-- No clone of JSON is dropped from its array. -/
theorem dropUndefined_plain {xs : List Value} (h : ∀ x ∈ xs, Plain x) : dropUndefined xs = xs := by
  rw [dropUndefined, List.filter_eq_self]
  intro x hx
  cases x with
  | undefined => exact (h _ hx).elim
  | _ => rfl

section
variable {rt : Runtime} {rec : Value → Except Text Value}

theorem adjustMembersFrom_keys : ∀ {ms ns : List (Text × Value)}, adjustMembersFrom rt rec ms = .ok ns →
    ns.map Prod.fst = ms.map Prod.fst
  | [], ns, h => by
    cases h
    rfl
  | (k, x) :: ms, ns, h => by
    simp only [adjustMembersFrom, bind, Except.bind] at h
    split at h
    · cases h
    · split at h
      · cases h
      · next ns' hms =>
        cases h
        rw [List.map_cons, List.map_cons, adjustMembersFrom_keys hms]

/-- An object that comes out as it was is not foreign, and its members come out as
they were. -/
theorem kept_object (hrt : GivesInstances rt) (hrec : Shrinks rec) {ms : List (Text × Value)}
    (hms : PlainMembers ms) (hn : (ms.map Prod.fst).Nodup)
    (h : child rt rec (clone rt (.obj ms)) = .ok (.obj ms)) :
    isForeign ms = false ∧ adjustMembersFrom rt rec (cloneMembers rt ms) = .ok ms := by
  obtain ⟨hp, hd⟩ := clone_plain rt (.obj ms) hms
  have hc := clonesTo rt ms
  generalize clone rt (.obj ms) = c at hc h hp hd
  cases hc with
  | text _ => cases h
  | document d _ hin =>
    -- The document is one of the members, so it is less deep.
    have hle := child_depth hrt hrec (clone rt d) (.obj ms) hp h hms
    have hlt := (clone_plain rt d (plainMembers_iff.mp hms _ hin)).2
    have hmem : depth d ≤ depthMembers ms := depth_of_mem (js "_doc", d) hin
    rw [depth] at hle
    omega
  | array ys _ _ =>
    have hh : fromJSONValueHelper rt rec (.arr ys) = none := rfl
    simp only [child, hh, Option.getD_none, adjustTypesFromJSONValue, bind, Except.bind] at h
    split at h <;> cases h
  | object hf =>
    cases hh : fromJSONValueHelper rt rec
        (.obj ((cloneMembers rt ms).foldl (fun ret m => assign m.1 m.2 ret) [])) with
    | some result =>
      obtain ⟨ms', c, heq, -, rfl⟩ := helper_some hh
      cases heq
      rw [child, hh, Option.getD_some] at h
      have hlt := converts_depth hrt hrec hp h hms
      omega
    | none =>
      simp only [child, hh, Option.getD_none, adjustTypesFromJSONValue, bind, Except.bind] at h
      split at h
      · cases h
      · next ns hns =>
        cases h
        have hkeys := adjustMembersFrom_keys hns
        have hproto : js "__proto__" ∉ ms.map Prod.fst := by
          intro hin
          rw [hkeys] at hin
          obtain ⟨m, hm, heq⟩ := List.mem_map.mp hin
          rcases mem_rebuilt hm with hm | ⟨-, hne⟩
          · cases hm
          · exact hne heq
        have hck : (cloneMembers rt ms).map Prod.fst = ms.map Prod.fst := by
          rw [cloneMembers_eq, List.map_map]
          rfl
        have hself := foldl_assign id (cloneMembers rt ms) [] (by simpa [hck] using hn)
          (by rw [hck]; exact hproto)
        simp only [id_eq, List.nil_append, Prod.mk.eta, List.map_id'] at hself
        rw [hself] at hns
        exact ⟨isForeign_eq_false.mpr ⟨⟨⟨hf.1, hf.2.1⟩, hf.2.2⟩, hproto⟩, hns⟩

mutual

/-- What comes out of cloning and converting as it was is quiet. -/
theorem quiet_of_kept (hrt : GivesInstances rt) (hrec : Shrinks rec) : ∀ j : Json, WF j →
    child rt rec (clone rt (ofJson j)) = .ok (ofJson j) → Quiet (ofJson j)
  | .null, _, _ | .bool _, _, _ | .num _, _, _ | .str _, _, _ => trivial
  | .arr xs, hw, h => by
    have hpl : ∀ x ∈ cloneElems rt (ofJsonElems xs), Plain x := by
      intro x hx
      rw [cloneElems_eq] at hx
      obtain ⟨y, hy, rfl⟩ := List.mem_map.mp hx
      exact (clone_plain rt y (plainElems_iff.mp (ofJsonElems_plain xs) y hy)).1
    have hh : fromJSONValueHelper rt rec (.arr (cloneElems rt (ofJsonElems xs))) = none := rfl
    simp only [ofJson, clone, dropUndefined_plain hpl, child, hh, Option.getD_none,
      adjustTypesFromJSONValue, bind, Except.bind] at h
    split at h
    · cases h
    · next ys hys =>
      cases h
      exact quietElems_of_kept hrt hrec xs hw hys
  | .obj ms, hw, h => by
    have hn : ((ofJsonMembers ms).map Prod.fst).Nodup := by
      rw [ofJsonMembers_keys]
      exact hw.1
    obtain ⟨hf, hm⟩ := kept_object hrt hrec (ofJsonMembers_plain ms) hn h
    exact ⟨hn, hf, quietMembers_of_kept hrt hrec ms hw.2 hm⟩

theorem quietElems_of_kept (hrt : GivesInstances rt) (hrec : Shrinks rec) : ∀ xs : List Json,
    WFElems xs → adjustElemsFrom rt rec (cloneElems rt (ofJsonElems xs)) = .ok (ofJsonElems xs) →
    QuietElems (ofJsonElems xs)
  | [], _, _ => trivial
  | x :: xs, hw, h => by
    simp only [ofJsonElems, cloneElems, adjustElemsFrom, bind, Except.bind] at h
    split at h
    · cases h
    · next y hy =>
      split at h
      · cases h
      · next ys hys =>
        cases h
        exact ⟨quiet_of_kept hrt hrec x hw.1 hy, quietElems_of_kept hrt hrec xs hw.2 hys⟩

theorem quietMembers_of_kept (hrt : GivesInstances rt) (hrec : Shrinks rec) :
    ∀ ms : List (Text × Json), WFMembers ms →
    adjustMembersFrom rt rec (cloneMembers rt (ofJsonMembers ms)) = .ok (ofJsonMembers ms) →
    QuietMembers (ofJsonMembers ms)
  | [], _, _ => trivial
  | (k, x) :: ms, hw, h => by
    simp only [ofJsonMembers, cloneMembers, adjustMembersFrom, bind, Except.bind] at h
    split at h
    · cases h
    · next y hy =>
      split at h
      · cases h
      · next ns hns =>
        cases h
        exact ⟨quiet_of_kept hrt hrec x hw.1 hy, quietMembers_of_kept hrt hrec ms hw.2 hns⟩

end

end

/-! ## Parsing -/

/-- What `EJSON.fromJSONValue` leaves as it is, of the values without tags. -/
theorem fromJSONValueFuel_keeps {rt : Runtime} (hrt : GivesInstances rt) {n : ℕ} {j : Json} (hw : WF j)
    (hu : Untagged (ofJson j)) :
    fromJSONValueFuel rt (n + 1) (ofJson j) = .ok (ofJson j) ↔ Quiet (ofJson j) := by
  have hroot : fromJSONValueHelper rt (fromJSONValueFuel rt n) (ofJson j) = none := by
    cases j with
    | obj ms => exact helper_untagged rt _ hu.1
    | _ => rfl
  have hself := child_untagged rt (fromJSONValueFuel rt n) (ofJson j) hu
  rw [child, hroot, Option.getD_none] at hself
  simp only [fromJSONValueFuel, hroot]
  constructor
  · intro h
    refine quiet_of_kept hrt (fromJSONValueFuel_shrinks hrt n) j hw ?_
    by_cases hobj : (ofJson j).isObject = true
    · rw [if_pos hobj, adjustedFrom] at h
      split at h
      · next r hr =>
        -- A clone that reads as a tag stands in the result as it is, so it is no clone of
        -- a value without tags that came out unchanged.
        cases r with
        | error e => cases h
        | ok v =>
          have heq : clone rt (ofJson j) = ofJson j := Except.ok.inj h
          rw [heq, hroot] at hr
          cases hr
      · next hr =>
        rw [child, hr, Option.getD_none]
        exact h
    · cases j with
      | arr xs => exact absurd rfl hobj
      | obj ms => exact absurd rfl hobj
      | _ => rfl
  · intro hq
    rw [clone_quiet rt _ hq, adjustedFrom, hroot, hself]
    exact ite_self _

/-- **When EJSON is transparent.** A JSON text without tags is parsed as
`JSON.parse` parses it exactly when `clone` takes none of its objects for something
else. -/
theorem parse_transparent {rt : Runtime} (hrt : GivesInstances rt) {text : Text} {j : Json}
    (hj : parse text = some j) (hu : Untagged (ofJson j)) :
    ejsonParse rt text = .ok (ofJson j) ↔ Quiet (ofJson j) := by
  rw [ejsonParse, hj]
  exact fromJSONValueFuel_keeps hrt (wf_of_parse hj) hu

theorem plainRuntime_givesInstances : GivesInstances plainRuntime := by
  intro typeName factory x v h
  cases h

/-- An object whose keys are those of a command, and one with half a tag. -/
def halfTag : Json := .obj [(js "$set", .arr [.obj [(js "$type", .null)]])]

theorem parse_transparent_halfTag :
    parse (js "\x7b\"$set\":[\x7b\"$type\":null\x7d]\x7d") = some halfTag ∧
      ejsonParse plainRuntime (js "\x7b\"$set\":[\x7b\"$type\":null\x7d]\x7d") =
        .ok (ofJson halfTag) := by
  have htext : js "\x7b\"$set\":[\x7b\"$type\":null\x7d]\x7d" = stringify halfTag := by
    rfl
  have hp : parse (js "\x7b\"$set\":[\x7b\"$type\":null\x7d]\x7d") = some halfTag := by
    rw [htext]
    exact parse_stringify ⟨by decide, ⟨⟨by decide, trivial, trivial⟩, trivial⟩, trivial⟩
  have hu : Untagged (ofJson halfTag) :=
    ⟨by decide, ⟨⟨by decide, trivial, trivial⟩, trivial⟩, trivial⟩
  refine ⟨hp, (parse_transparent plainRuntime_givesInstances hp hu).mpr ?_⟩
  exact ⟨by decide, by decide, ⟨⟨by decide, by decide, trivial, trivial⟩, trivial⟩, trivial⟩

/-- An object with a key `callee` is taken for the arguments of a call, and comes out as
an empty array. -/
theorem parse_callee_not_transparent : ∃ text j, parse text = some j ∧ Untagged (ofJson j) ∧
    ejsonParse plainRuntime text ≠ .ok (ofJson j) := by
  have htext : js "\x7b\"callee\":true\x7d" = stringify (.obj [(js "callee", .bool true)]) := by
    rfl
  have hp : parse (js "\x7b\"callee\":true\x7d") = some (.obj [(js "callee", .bool true)]) := by
    rw [htext]
    exact parse_stringify ⟨by decide, trivial, trivial⟩
  refine ⟨_, _, hp, ⟨by decide, trivial, trivial⟩, ?_⟩
  have h : ejsonParse plainRuntime (js "\x7b\"callee\":true\x7d") = .ok (.arr []) := by
    rw [ejsonParse, hp]
    rfl
  rw [h]
  intro h
  cases h

end TypeFerry.Ejson.Transparent
