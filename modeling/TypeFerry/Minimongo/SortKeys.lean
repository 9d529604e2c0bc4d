import TypeFerry.Minimongo.Order
import TypeFerry.Minimongo.Sorter

/-! # The sort key of a document

A sort path may lead to several values of a document. One value for each part of the specification, found under the
same array steps, is a branch key. Documents of JSON with dates have no two values that clash, so their keys have an
order, and the sorter sorts them by the least branch key. -/
namespace TypeFerry.Minimongo.SortKeys
open TypeFerry.Lib.Numeral TypeFerry.Lib.JsonText TypeFerry.Lib.Comparison TypeFerry.Ejson.Clone
open TypeFerry.Minimongo.Values TypeFerry.Minimongo.Sorter
open TypeFerry.Minimongo.Order hiding compareValues compareElems compareEntries

/-! ## JSON with dates -/

mutual

/-- JSON with dates. -/
def JsonLike : Value → Prop
  | .null | .bool _ | .str _ => True
  | .num n => n ≠ .nan
  | .date t => t.isSome = true
  | .arr xs => JsonLikeElems xs
  | .obj ms => (ms.map Prod.fst).Nodup ∧ JsonLikeEntries ms
  | .undefined | .regexp _ | .binary _ => False

def JsonLikeElems : List Value → Prop
  | [] => True
  | x :: xs => JsonLike x ∧ JsonLikeElems xs

def JsonLikeEntries : List (Text × Value) → Prop
  | [] => True
  | (_, x) :: ms => JsonLike x ∧ JsonLikeEntries ms

end

theorem jsonLikeElems_iff {xs : List Value} : JsonLikeElems xs ↔ ∀ x ∈ xs, JsonLike x := by
  induction xs with
  | nil => simp [JsonLikeElems]
  | cons x xs ih => simp [JsonLikeElems, ih]

theorem jsonLikeEntries_iff {ms : List (Text × Value)} : JsonLikeEntries ms ↔ ∀ m ∈ ms, JsonLike m.2 := by
  induction ms with
  | nil => simp [JsonLikeEntries]
  | cons m ms ih => simp [JsonLikeEntries, ih]

/-- What stands in a sort key: a value of a document, or `undefined` where it has none. -/
def Sortable (v : Value) : Prop := v = .undefined ∨ JsonLike v

mutual

theorem distinctKeys_of_jsonLike : ∀ {v : Value}, JsonLike v → DistinctKeys v
  | .arr _, h => distinctKeysElems_of_jsonLike h
  | .obj _, h => ⟨h.1, distinctKeysEntries_of_jsonLike h.2⟩
  | .undefined, _ | .null, _ | .bool _, _ | .num _, _ | .str _, _ | .date _, _ | .regexp _, _ | .binary _, _ => trivial

theorem distinctKeysElems_of_jsonLike : ∀ {xs : List Value}, JsonLikeElems xs → DistinctKeysElems xs
  | [], _ => trivial
  | _ :: _, h => ⟨distinctKeys_of_jsonLike h.1, distinctKeysElems_of_jsonLike h.2⟩

theorem distinctKeysEntries_of_jsonLike : ∀ {ms : List (Text × Value)}, JsonLikeEntries ms → DistinctKeysEntries ms
  | [], _ => trivial
  | (_, _) :: _, h => ⟨distinctKeys_of_jsonLike h.1, distinctKeysEntries_of_jsonLike h.2⟩

end

theorem alike_none {a b : Value} : alike none a b = equalValues true a b := by
  cases a with
  | str s =>
    cases b with
    | str t => simp [alike, equalValues, Bool.beq_eq_decide_eq]
    | _ => rfl
  | _ => rfl

mutual

/-- Without a collator, values of JSON with dates are equal or have an order. -/
theorem not_clashes_of_jsonLike : ∀ {a b : Value}, JsonLike a → JsonLike b → clashes none a b = false
  | .num m, b, ha, hb => by
    cases b with
    | num n =>
      rw [clashes, decide_eq_false ha, decide_eq_false hb]
      rfl
    | _ => rfl
  | .date s, b, ha, hb => by
    cases b with
    | date t =>
      rw [clashes, Option.isNone_eq_false_iff.mpr ha, Option.isNone_eq_false_iff.mpr hb]
      rfl
    | _ => rfl
  | .arr xs, b, ha, hb => by
    cases b with
    | arr ys =>
      rw [clashes, Bool.eq_false_iff]
      intro h
      obtain ⟨hne, hclash⟩ := Bool.and_eq_true_iff.mp h
      rw [equalElems_of_clashElems ha hb hclash] at hne
      cases hne
    | _ => rfl
  | .obj ms, b, ha, hb => by
    cases b with
    | obj ns =>
      rw [clashes, Bool.eq_false_iff]
      intro h
      obtain ⟨hne, hclash⟩ := Bool.and_eq_true_iff.mp h
      rw [(equalValues_obj hb.1).mpr (equalEntries_of_clashEntries ha.2 hb.2 hclash)] at hne
      cases hne
    | _ => rfl
  | .null, b, _, _ | .bool _, b, _, _ | .str _, b, _, _ => by cases b <;> rfl

theorem equalElems_of_clashElems : ∀ {xs ys : List Value}, JsonLikeElems xs → JsonLikeElems ys →
    clashElems none xs ys = true → equalElems true xs ys = true
  | [], [], _, _, _ => rfl
  | [], _ :: _, _, _, h | _ :: _, [], _, _, h => by cases h
  | x :: xs, y :: ys, hxs, hys, h => by
    rw [clashElems, alike_none, not_clashes_of_jsonLike hxs.1 hys.1] at h
    by_cases hxy : equalValues true x y = true
    · rw [if_pos hxy] at h
      rw [equalElems, hxy, equalElems_of_clashElems hxs.2 hys.2 h]
      rfl
    · rw [if_neg hxy] at h
      cases h

theorem equalEntries_of_clashEntries : ∀ {ms ns : List (Text × Value)}, JsonLikeEntries ms → JsonLikeEntries ns →
    clashEntries none ms ns = true → List.Forall₂ (fun m n => m.1 = n.1 ∧ equalValues true m.2 n.2 = true) ms ns
  | [], [], _, _, _ => .nil
  | [], _ :: _, _, _, h | _ :: _, [], _, _, h => by cases h
  | (k, x) :: ms, (k', y) :: ns, hms, hns, h => by
    rw [clashEntries, alike_none, not_clashes_of_jsonLike hms.1 hns.1, Bool.and_eq_true, decide_eq_true_iff] at h
    by_cases hxy : equalValues true x y = true
    · rw [if_pos hxy] at h
      exact .cons ⟨h.1, hxy⟩ (equalEntries_of_clashEntries hms.2 hns.2 h.2)
    · rw [if_neg hxy] at h
      cases h.2

end

theorem compareValues_isOrder : IsOrder compareValues {v | Sortable v} := by
  have hcollator : ∀ compare ∈ (none : Option Collator), Preorders compare := by simp
  have horder : IsOrder (Order.compareValues none) {v | Sortable v} := by
    refine (compareValues_isOrder_iff hcollator _ ?_).mpr ?_
    · rintro v (rfl | h)
      · trivial
      · exact distinctKeys_of_jsonLike h
    · rintro a (rfl | ha) b hb
      · cases b <;> rfl
      · rcases hb with rfl | hb
        · cases a <;> rfl
        · exact not_clashes_of_jsonLike ha hb
  exact horder.congr fun a _ b _ => (compareValues_none a b).symm

/-! ## The order of keys -/

/-- `x` before `y` in the direction of a part. -/
def Before (isAscending : Bool) (x y : Value) : Prop :=
  if isAscending then compareValues x y < 0 else compareValues y x < 0

/-- Lexicographically, each part in its direction. -/
def KeyLE : List SortPart → List Value → List Value → Prop
  | (_, isAscending) :: parts, x :: left, y :: right =>
    Before isAscending x y ∨ (compareValues x y = 0 ∧ KeyLE parts left right)
  | _, _, _ => True

/-- One sortable value for each part. -/
def IsKey (parts : List SortPart) (key : List Value) : Prop :=
  key.length = parts.length ∧ ∀ v ∈ key, Sortable v

theorem keyLE_iff : ∀ {parts : List SortPart} {left right : List Value}, IsKey parts left → IsKey parts right →
    (KeyLE parts left right ↔ compareKeys parts left right ≤ 0)
  | [], left, right, _, _ => by simp [KeyLE, compareKeys]
  | (path, isAscending) :: parts, x :: left, y :: right, hleft, hright => by
    have hswap := compareValues_isOrder.1 x (hleft.2 x (.head _)) y (hright.2 y (.head _))
    have htail : KeyLE parts left right ↔ compareKeys parts left right ≤ 0 :=
      keyLE_iff ⟨Nat.succ.inj hleft.1, fun v hv => hleft.2 v (.tail _ hv)⟩
        ⟨Nat.succ.inj hright.1, fun v hv => hright.2 v (.tail _ hv)⟩
    rw [KeyLE, compareKeys, htail, Before]
    split_ifs <;> omega
  | _ :: _, [], _, hleft, _ => by cases hleft.1
  | _ :: _, _ :: _, [], _, hright => by cases hright.1

theorem compareKeys_isOrder (parts : List SortPart) : IsOrder (compareKeys parts) {key | IsKey parts key} := by
  induction parts with
  | nil => exact ⟨fun _ _ _ _ => rfl, fun _ _ _ _ _ _ _ _ => le_rfl⟩
  | cons part parts ih =>
    obtain ⟨path, isAscending⟩ := part
    have hhead : IsOrder (fun left right : List Value => compareValues (left.headD .undefined) (right.headD .undefined))
        {key | IsKey ((path, isAscending) :: parts) key} := by
      refine compareValues_isOrder.comap fun key hkey => ?_
      cases key with
      | nil => cases hkey.1
      | cons x key => exact hkey.2 x (.head _)
    have hdirected : IsOrder (fun left right : List Value => if isAscending then
        compareValues (left.headD .undefined) (right.headD .undefined)
        else -compareValues (left.headD .undefined) (right.headD .undefined))
        {key | IsKey ((path, isAscending) :: parts) key} := by
      cases isAscending with
      | true => exact hhead
      | false => exact hhead.neg
    have htail : IsOrder (fun left right : List Value => compareKeys parts left.tail right.tail)
        {key | IsKey ((path, isAscending) :: parts) key} := by
      refine ih.comap fun key hkey => ?_
      cases key with
      | nil => cases hkey.1
      | cons x key => exact ⟨Nat.succ.inj hkey.1, fun v hv => hkey.2 v (.tail _ hv)⟩
    refine (hdirected.thenBy htail).congr fun left hleft right hright => ?_
    cases left with
    | nil => cases hleft.1
    | cons x left =>
      cases right with
      | nil => cases hright.1
      | cons y right => cases isAscending <;> simp [compareKeys, thenBy]

/-! ## Branch keys -/

/-- The branches of a path; `undefined` stands for none. -/
def sortBranches (document : Value) (path : Text) : List ValueBranch :=
  let expanded := expandArrays (lookupBranches document path true) true
  if expanded.isEmpty then [⟨.undefined, false, none⟩] else expanded

/-- A value of each path, all of them under the same array steps or under none. -/
def IsBranchKey (parts : List SortPart) (document : Value) (key : List Value) : Prop :=
  ∃ steps : List ArrayStep, List.Forall₂ (fun part v => ∃ branch ∈ sortBranches document part.1,
    (branch.arrayIndices = none ∨ branch.arrayIndices = some steps) ∧ branch.value = v) parts key

/-- The values of a path with their array steps. -/
def pathValues (document : Value) (part : SortPart) : PathValues :=
  (sortBranches document part.1).map fun branch => (branch.arrayIndices, branch.value)

theorem sortBranches_ne_nil (document : Value) (path : Text) : sortBranches document path ≠ [] := by
  unfold sortBranches
  dsimp only
  split
  · exact List.cons_ne_nil _ _
  · next h => exact fun hnil => h (List.isEmpty_iff.mpr hnil)

/-- One value that is not in an array. -/
def IsPlain (values : PathValues) : Prop := ∃ v, values = [(none, v)]

/-- One value under each of the array steps. -/
structure IsIndexed (paths : List (List ArrayStep)) (values : PathValues) : Prop where
  isSome : ∀ e ∈ values, e.1.isSome = true
  nodup : (stepsOf values).Nodup
  mem_iff : ∀ steps, steps ∈ stepsOf values ↔ steps ∈ paths

theorem mem_stepsOf {values : PathValues} {steps : List ArrayStep} :
    steps ∈ stepsOf values ↔ ∃ v, (some steps, v) ∈ values := by
  simp [stepsOf]

/-- What the loop over the branches of a path leaves, if it does not throw. -/
theorem branchValues_ok {knownPaths : Option (List (List ArrayStep))} {single : Bool} :
    ∀ {branches : List ValueBranch} {values values' : PathValues},
    branchValues knownPaths single branches values = .ok values' →
    values' = values ++ branches.map (fun branch => (branch.arrayIndices, branch.value)) ∧
      (single = false → ∀ branch ∈ branches, branch.arrayIndices.isSome = true) ∧
      (∀ paths ∈ knownPaths, ∀ branch ∈ branches, ∀ steps ∈ branch.arrayIndices, steps ∈ paths) ∧
      ((stepsOf values).Nodup → (stepsOf values').Nodup)
  | [], values, values', h => by
    cases h
    simp
  | branch :: rest, values, values', h => by
    rw [branchValues] at h
    cases hsteps : branch.arrayIndices with
    | none =>
      rw [hsteps] at h
      cases single with
      | false => cases h
      | true =>
        obtain ⟨hvalues, -, hknown, hnodup⟩ := branchValues_ok h
        refine ⟨by rw [hvalues, List.map_cons, hsteps, List.append_assoc]; rfl, fun hsingle => (by cases hsingle), ?_, ?_⟩
        · intro paths hpaths b hb steps hsteps'
          rcases List.mem_cons.mp hb with rfl | hb
          · rw [hsteps] at hsteps'
            cases hsteps'
          · exact hknown paths hpaths b hb steps hsteps'
        · exact fun hvalues => hnodup (by simpa [stepsOf] using hvalues)
    | some steps =>
      rw [hsteps] at h
      dsimp only at h
      split at h
      · cases h
      · next hfresh =>
        split at h
        · cases h
        · next hparallel =>
          obtain ⟨hvalues, hsome, hknown, hnodup⟩ := branchValues_ok h
          refine ⟨by rw [hvalues, List.map_cons, hsteps, List.append_assoc]; rfl, ?_, ?_, ?_⟩
          · intro hsingle b hb
            rcases List.mem_cons.mp hb with rfl | hb
            · rw [hsteps]
              rfl
            · exact hsome hsingle b hb
          · intro paths hpaths b hb steps' hsteps'
            rcases List.mem_cons.mp hb with rfl | hb
            · rw [hsteps] at hsteps'
              cases hsteps'
              by_contra hmem
              rw [Option.mem_def] at hpaths
              exact hparallel (by rw [hpaths]; simpa using hmem)
            · exact hknown paths hpaths b hb steps' hsteps'
          · intro hvalues
            have hnew : steps ∉ stepsOf values := by
              rw [mem_stepsOf]
              rintro ⟨v, hv⟩
              exact hfresh (List.lookup_isSome_iff.mpr ⟨_, hv, by simp⟩)
            refine hnodup ?_
            have happend : stepsOf (values ++ [(some steps, branch.value)]) = stepsOf values ++ [steps] := by simp [stepsOf]
            rw [happend, List.nodup_append]
            refine ⟨hvalues, List.nodup_singleton _, ?_⟩
            rintro s hs t ht rfl
            rw [List.mem_singleton] at ht
            exact hnew (ht ▸ hs)

/-- A path has one value outside arrays, or values under distinct array steps. -/
theorem pathValues_ok {document : Value} {part : SortPart} {knownPaths : Option (List (List ArrayStep))}
    {values : PathValues} (h : branchValues knownPaths ((sortBranches document part.1).length ≤ 1)
      (sortBranches document part.1) [] = .ok values) :
    values = pathValues document part ∧ (IsPlain values ∨ stepsOf values ≠ [] ∧ (∀ e ∈ values, e.1.isSome = true) ∧
      (stepsOf values).Nodup ∧ ∀ paths ∈ knownPaths, stepsOf values ⊆ paths) := by
  obtain ⟨hvalues, hsome, hknown, hnodup⟩ := branchValues_ok h
  refine ⟨hvalues, ?_⟩
  have hne := sortBranches_ne_nil document part.1
  by_cases hplain : ∃ branch ∈ sortBranches document part.1, branch.arrayIndices = none
  · left
    obtain ⟨branch, hbranch, hnone⟩ := hplain
    have hlength : (sortBranches document part.1).length ≤ 1 := by
      by_contra hlong
      have hisSome := hsome (decide_eq_false hlong) branch hbranch
      rw [hnone] at hisSome
      cases hisSome
    obtain ⟨b, hb⟩ := List.length_eq_one_iff.mp (Nat.le_antisymm hlength (List.length_pos_iff.mpr hne))
    rw [hb, List.mem_singleton] at hbranch
    rw [hvalues, hb, ← hbranch, List.map_cons, hnone]
    exact ⟨branch.value, rfl⟩
  · right
    have hall : ∀ e ∈ values, e.1.isSome = true := by
      rw [hvalues]
      intro e he
      obtain ⟨branch, hbranch, rfl⟩ := List.mem_map.mp he
      exact Option.isSome_iff_ne_none.mpr fun hnone => hplain ⟨branch, hbranch, hnone⟩
    refine ⟨?_, hall, hnodup List.nodup_nil, ?_⟩
    · obtain ⟨branch, hbranch⟩ := List.exists_mem_of_ne_nil _ hne
      have hmem : (branch.arrayIndices, branch.value) ∈ values := by
        rw [hvalues]
        exact List.mem_map.mpr ⟨branch, hbranch, rfl⟩
      obtain ⟨steps, hsteps⟩ := Option.isSome_iff_exists.mp (hall _ hmem)
      dsimp only at hsteps
      rw [hsteps] at hmem
      exact List.ne_nil_of_mem (mem_stepsOf.mpr ⟨_, hmem⟩)
    · intro paths hpaths steps hsteps
      obtain ⟨v, hv⟩ := mem_stepsOf.mp hsteps
      rw [hvalues] at hv
      obtain ⟨branch, hbranch, heq⟩ := List.mem_map.mp hv
      exact hknown paths hpaths branch hbranch steps (congrArg Prod.fst heq)

theorem valuesByPart_cons {document : Value} {part : SortPart} {parts : List SortPart}
    {knownPaths knownPaths' : Option (List (List ArrayStep))} {values : List PathValues}
    (h : valuesByPart document (part :: parts) knownPaths = .ok (values, knownPaths')) :
    ∃ first shared others, branchValues knownPaths ((sortBranches document part.1).length ≤ 1)
        (sortBranches document part.1) [] = .ok first ∧ valuesByPart document parts shared = .ok (others, knownPaths') ∧
      values = first :: others ∧
      ((∃ paths, knownPaths = some paths ∧ shared = some paths ∧
          ((first.lookup none).isNone = true → first.length = paths.length)) ∨
        knownPaths = none ∧ shared = if (stepsOf first).isEmpty then none else some (stepsOf first)) := by
  obtain ⟨path, isAscending⟩ := part
  rw [valuesByPart] at h
  obtain ⟨first, hfirst, h⟩ := bind_eq_ok h
  cases knownPaths with
  | none =>
    obtain ⟨shared, hshared, h⟩ := bind_eq_ok h
    obtain ⟨⟨others, shared'⟩, hothers, h⟩ := bind_eq_ok h
    cases h
    cases hshared
    exact ⟨first, _, others, hfirst, hothers, rfl, .inr ⟨rfl, rfl⟩⟩
  | some paths =>
    dsimp only at h
    split at h
    · cases h
    · next hcount =>
      obtain ⟨shared, hshared, h⟩ := bind_eq_ok h
      obtain ⟨⟨others, shared'⟩, hothers, h⟩ := bind_eq_ok h
      cases h
      cases hshared
      refine ⟨first, _, others, hfirst, hothers, rfl, .inl ⟨paths, rfl, rfl, fun hnone => ?_⟩⟩
      by_contra hne
      exact hcount (by simp [hnone, hne])

/-- As many array steps as the known ones, all of them known, are the known ones. -/
theorem mem_steps_of_length {values : PathValues} {paths : List (List ArrayStep)}
    (hsome : ∀ e ∈ values, e.1.isSome = true) (hnodup : (stepsOf values).Nodup) (hsub : stepsOf values ⊆ paths)
    (hcount : (values.lookup none).isNone = true → values.length = paths.length) (steps : List ArrayStep) :
    steps ∈ stepsOf values ↔ steps ∈ paths := by
  have hnone : (values.lookup none).isNone = true := by
    rw [Option.isNone_iff_eq_none, List.lookup_eq_none_iff]
    intro e he
    have hisSome := hsome e he
    cases h : e.1 with
    | none => simp [h] at hisSome
    | some s => rfl
  have hlength : (stepsOf values).length = values.length := List.filterMap_length_eq_length.mpr hsome
  have hperm := (List.subperm_of_subset hnodup hsub).perm_of_length_le (by rw [hlength, hcount hnone])
  exact hperm.mem_iff

/-- The values of every path are one, or they are found under the same array steps. -/
theorem valuesByPart_ok {document : Value} : ∀ {parts : List SortPart} {knownPaths knownPaths' : Option (List (List ArrayStep))}
    {values : List PathValues}, valuesByPart document parts knownPaths = .ok (values, knownPaths') →
    (∀ paths ∈ knownPaths, paths ≠ []) →
    values = parts.map (pathValues document) ∧ (∀ paths ∈ knownPaths, knownPaths' = some paths) ∧
      (∀ paths ∈ knownPaths', paths ≠ []) ∧
      ∀ v ∈ values, IsPlain v ∨ ∃ paths ∈ knownPaths', IsIndexed paths v
  | [], knownPaths, knownPaths', values, h, hne => by
    cases h
    exact ⟨rfl, fun _ h => h, hne, fun _ hv => absurd hv List.not_mem_nil⟩
  | part :: parts, knownPaths, knownPaths', values, h, hne => by
    obtain ⟨first, shared, others, hfirst, hothers, rfl, hshared⟩ := valuesByPart_cons h
    obtain ⟨hvalues, hfirst⟩ := pathValues_ok hfirst
    have hne' : ∀ paths ∈ shared, paths ≠ [] := by
      rcases hshared with ⟨paths, rfl, rfl, -⟩ | ⟨rfl, rfl⟩
      · exact hne
      · intro paths hpaths
        split at hpaths
        · cases hpaths
        · next hfilled =>
          cases hpaths
          exact fun hnil => hfilled (List.isEmpty_iff.mpr hnil)
    obtain ⟨hrest, hkept, hnonempty, hall⟩ := valuesByPart_ok hothers hne'
    refine ⟨by rw [hvalues, hrest, List.map_cons], ?_, hnonempty, ?_⟩
    · rcases hshared with ⟨paths, rfl, rfl, -⟩ | ⟨rfl, -⟩
      · exact hkept
      · exact fun _ h => absurd h (by simp)
    · intro v hv
      rcases List.mem_cons.mp hv with rfl | hv
      · refine hfirst.imp_right fun ⟨hsteps, hsome, hnodup, hsub⟩ => ?_
        rcases hshared with ⟨paths, rfl, rfl, hcount⟩ | ⟨rfl, rfl⟩
        · exact ⟨paths, hkept paths rfl, hsome, hnodup, mem_steps_of_length hsome hnodup (hsub paths rfl) hcount⟩
        · rw [if_neg fun hempty => hsteps (List.isEmpty_iff.mp hempty)] at hkept
          exact ⟨_, hkept _ rfl, hsome, hnodup, fun _ => Iff.rfl⟩
      · exact hall v hv

/-! ## The least branch key -/

/-- The value that a path has in the key of the given array steps. -/
def pick (steps : Option (List ArrayStep)) (values : PathValues) : Value :=
  ((values.lookup none).orElse fun _ => values.lookup steps).getD .undefined

theorem lookup_of_mem {steps : List ArrayStep} {v : Value} : ∀ {values : PathValues}, (stepsOf values).Nodup →
    (some steps, v) ∈ values → values.lookup (some steps) = some v
  | e :: values, hnodup, h => by
    obtain ⟨first, w⟩ := e
    rw [List.lookup_cons]
    rcases List.mem_cons.mp h with heq | hmem
    · cases heq
      simp
    · cases first with
      | none => exact lookup_of_mem hnodup hmem
      | some first =>
        have hsteps : steps ∈ stepsOf values := mem_stepsOf.mpr ⟨v, hmem⟩
        obtain ⟨hfresh, hnodup'⟩ := List.nodup_cons.mp hnodup
        have hne : (some steps == some first) = false := by
          rw [beq_eq_false_iff_ne]
          rintro ⟨⟩
          exact hfresh hsteps
        rw [hne]
        exact lookup_of_mem hnodup' hmem

theorem IsIndexed.pick_eq {paths : List (List ArrayStep)} {values : PathValues} (h : IsIndexed paths values)
    {steps : List ArrayStep} {v : Value} (hv : (some steps, v) ∈ values) : pick (some steps) values = v := by
  have hnone : values.lookup none = none := by
    rw [List.lookup_eq_none_iff]
    intro e he
    obtain ⟨s, hs⟩ := Option.isSome_iff_exists.mp (h.isSome e he)
    rw [hs]
    rfl
  rw [pick, hnone, lookup_of_mem h.nodup hv]
  rfl

/-- The key of the given array steps. -/
def keyOf (parts : List SortPart) (document : Value) (steps : Option (List ArrayStep)) : List Value :=
  parts.map fun part => pick steps (pathValues document part)

/-- A branch of a path that may stand in the key of the given array steps. -/
def HasBranch (document : Value) (steps : List ArrayStep) (part : SortPart) (v : Value) : Prop :=
  ∃ branch ∈ sortBranches document part.1,
    (branch.arrayIndices = none ∨ branch.arrayIndices = some steps) ∧ branch.value = v

theorem hasBranch_iff {document : Value} {steps : List ArrayStep} {part : SortPart} {v : Value} :
    HasBranch document steps part v ↔ (none, v) ∈ pathValues document part ∨ (some steps, v) ∈ pathValues document part := by
  simp only [HasBranch, pathValues, List.mem_map, Prod.mk.injEq]
  grind

theorem map_eq_of_forall₂ {α β : Type*} {r : α → β → Prop} {f : α → β} {l : List α} {l' : List β} (h : List.Forall₂ r l l')
    (hf : ∀ a ∈ l, ∀ b, r a b → f a = b) : l.map f = l' := by
  induction h with
  | nil => rfl
  | cons hab _ ih =>
    rw [List.map_cons, hf _ (.head _) _ hab, ih fun a ha => hf a (.tail _ ha)]

theorem IsPlain.hasBranch {document : Value} {part : SortPart} (h : IsPlain (pathValues document part))
    (steps : List ArrayStep) (steps' : Option (List ArrayStep)) (v : Value) :
    HasBranch document steps part v ↔ pick steps' (pathValues document part) = v := by
  obtain ⟨w, hw⟩ := h
  rw [hasBranch_iff, hw]
  simp [pick, eq_comm]

theorem IsIndexed.hasBranch {document : Value} {part : SortPart} {paths : List (List ArrayStep)}
    (h : IsIndexed paths (pathValues document part)) (steps : List ArrayStep) (v : Value) :
    HasBranch document steps part v ↔ steps ∈ paths ∧ pick (some steps) (pathValues document part) = v := by
  rw [hasBranch_iff, ← h.mem_iff, mem_stepsOf]
  constructor
  · rintro (hv | hv)
    · cases h.isSome _ hv
    · exact ⟨⟨v, hv⟩, h.pick_eq hv⟩
  · rintro ⟨⟨w, hw⟩, hv⟩
    rw [h.pick_eq hw] at hv
    exact .inr (hv ▸ hw)

/-- The branch keys are the ones under the array steps that the paths share. -/
theorem isBranchKey_indexed {parts : List SortPart} {document : Value} {paths : List (List ArrayStep)} (hne : paths ≠ [])
    (hall : ∀ part ∈ parts, IsPlain (pathValues document part) ∨ IsIndexed paths (pathValues document part))
    (key : List Value) : IsBranchKey parts document key ↔
      ∃ steps ∈ paths, keyOf parts document (some steps) = key := by
  constructor
  · rintro ⟨steps, h⟩
    obtain ⟨steps₀, hsteps₀⟩ := List.exists_mem_of_ne_nil paths hne
    by_cases hsteps : steps ∈ paths
    · refine ⟨steps, hsteps, map_eq_of_forall₂ h fun part hpart v hv => ?_⟩
      rcases hall part hpart with hplain | hindexed
      · exact (hplain.hasBranch steps _ v).mp hv
      · exact ((hindexed.hasBranch steps v).mp hv).2
    · -- No path has values in arrays then.
      refine ⟨steps₀, hsteps₀, map_eq_of_forall₂ h fun part hpart v hv => ?_⟩
      rcases hall part hpart with hplain | hindexed
      · exact (hplain.hasBranch steps _ v).mp hv
      · exact absurd ((hindexed.hasBranch steps v).mp hv).1 hsteps
  · rintro ⟨steps, hsteps, rfl⟩
    refine ⟨steps, List.forall₂_map_right_iff.mpr (List.forall₂_same.mpr fun part hpart => ?_)⟩
    rcases hall part hpart with hplain | hindexed
    · exact (hplain.hasBranch steps _ _).mpr rfl
    · exact (hindexed.hasBranch steps _).mpr ⟨hsteps, rfl⟩

theorem isBranchKey_plain {parts : List SortPart} {document : Value}
    (hall : ∀ part ∈ parts, IsPlain (pathValues document part)) (key : List Value) :
    IsBranchKey parts document key ↔ keyOf parts document none = key := by
  constructor
  · rintro ⟨steps, h⟩
    exact map_eq_of_forall₂ h fun part hpart v hv => ((hall part hpart).hasBranch steps none v).mp hv
  · rintro rfl
    exact ⟨[], List.forall₂_map_right_iff.mpr (List.forall₂_same.mpr fun part hpart =>
      ((hall part hpart).hasBranch [] none _).mpr rfl)⟩

/-! ## Keys of documents of JSON with dates -/

theorem sortable_getD {xs : List Value} (h : JsonLikeElems xs) (i : ℕ) : Sortable (xs.getD i .undefined) := by
  rw [List.getD_eq_getElem?_getD]
  cases hi : xs[i]? with
  | none => exact .inl rfl
  | some x => exact .inr (jsonLikeElems_iff.mp h x (List.mem_of_getElem? hi))

theorem sortable_getOwn {ms : List (Text × Value)} (h : JsonLikeEntries ms) (key : Text) :
    Sortable ((getOwn key ms).getD .undefined) := by
  cases hget : getOwn key ms with
  | none => exact .inl rfl
  | some x => exact .inr (jsonLikeEntries_iff.mp h _ (Ejson.Encode.mem_of_getOwn hget))

theorem branchAt_sortable {forSort : Bool} : ∀ {parts : List Text} {current : Value}
    {arrayIndices : Option (List ArrayStep)}, Sortable current →
    ∀ branch ∈ branchAt forSort parts current arrayIndices, Sortable branch.value
  | [], current, arrayIndices, h, branch, hbranch => by
    rw [branchAt, List.mem_singleton] at hbranch
    rw [hbranch]
    exact h
  | part :: rest, .arr xs, arrayIndices, h, branch, hbranch => by
    have hvalue := sortable_getD (h.resolve_left fun h => (by cases h)) (keyIndex part)
    rw [branchAt] at hbranch
    split at hbranch
    · cases hbranch
    · dsimp only at hbranch
      split at hbranch
      · rw [List.mem_singleton.mp hbranch]
        exact hvalue
      · exact branchAt_sortable hvalue branch hbranch
  | part :: rest, .obj ms, arrayIndices, h, branch, hbranch => by
    have hms : JsonLike (.obj ms) := h.resolve_left fun h => (by cases h)
    have hvalue := sortable_getOwn hms.2 part
    rw [branchAt] at hbranch
    split at hbranch
    · rw [List.mem_singleton.mp hbranch]
      exact hvalue
    · split at hbranch
      · next child hchild => exact branchAt_sortable hvalue branch hbranch
      · next xs hxs =>
        rcases List.mem_append.mp hbranch with hbranch | hbranch
        · exact branchAt_sortable hvalue branch hbranch
        · split at hbranch
          · cases hbranch
          · obtain ⟨⟨x, i⟩, hx, hbranch⟩ := List.mem_flatMap.mp hbranch
            split at hbranch
            · rw [hxs] at hvalue
              have helems : JsonLikeElems xs := hvalue.resolve_left fun h => (by cases h)
              have hmem := List.fst_mem_of_mem_zipIdx hx
              exact branchAt_sortable (.inr (jsonLikeElems_iff.mp helems x hmem)) branch hbranch
            · cases hbranch
      · rw [List.mem_singleton.mp hbranch]
        exact .inl rfl
  | _ :: _, .undefined, _, _, branch, hbranch | _ :: _, .null, _, _, branch, hbranch
  | _ :: _, .bool _, _, _, branch, hbranch | _ :: _, .num _, _, _, branch, hbranch
  | _ :: _, .str _, _, _, branch, hbranch | _ :: _, .date _, _, _, branch, hbranch
  | _ :: _, .binary _, _, _, branch, hbranch | _ :: _, .regexp _, _, _, branch, hbranch => by
    rw [branchAt, List.mem_singleton] at hbranch
    · rw [hbranch]
      exact .inl rfl
    all_goals rintro _ ⟨⟩

theorem sortBranches_sortable {document : Value} (h : JsonLike document) {path : Text} :
    ∀ branch ∈ sortBranches document path, Sortable branch.value := by
  intro branch hbranch
  unfold sortBranches at hbranch
  dsimp only at hbranch
  split at hbranch
  · rw [List.mem_singleton.mp hbranch]
    exact .inl rfl
  · obtain ⟨above, habove, hbranch⟩ := List.mem_flatMap.mp hbranch
    have hvalue : Sortable above.value := branchAt_sortable (.inr h) above habove
    split at hbranch
    · next xs hxs =>
      rcases List.mem_append.mp hbranch with hbranch | hbranch
      · split at hbranch
        · cases hbranch
        · rw [List.mem_singleton.mp hbranch]
          exact hvalue
      · split at hbranch
        · cases hbranch
        · obtain ⟨⟨x, i⟩, hx, rfl⟩ := List.mem_map.mp hbranch
          rw [hxs] at hvalue
          have helems : JsonLikeElems xs := hvalue.resolve_left fun h => (by cases h)
          exact .inr (jsonLikeElems_iff.mp helems x (List.fst_mem_of_mem_zipIdx hx))
    · rw [List.mem_singleton.mp hbranch]
      exact hvalue

theorem IsBranchKey.isKey {parts : List SortPart} {document : Value} {key : List Value} (h : IsBranchKey parts document key)
    (hdocument : JsonLike document) : IsKey parts key := by
  obtain ⟨steps, h⟩ := h
  refine ⟨h.length_eq.symm, ?_⟩
  induction h with
  | nil => exact fun v hv => absurd hv List.not_mem_nil
  | cons hbranch _ ih =>
    intro v hv
    rcases List.mem_cons.mp hv with rfl | hv
    · obtain ⟨branch, hmem, -, rfl⟩ := hbranch
      exact sortBranches_sortable hdocument branch hmem
    · exact ih v hv

/-- The key of a document is the least of its branch keys. -/
theorem documentKey_least {parts : List SortPart} {document : Value} {key : List Value}
    (h : documentKey parts document = .ok key) (hdocument : JsonLike document) :
    IsBranchKey parts document key ∧ ∀ key', IsBranchKey parts document key' → KeyLE parts key key' := by
  rw [documentKey] at h
  obtain ⟨⟨values, knownPaths⟩, hvalues, h⟩ := bind_eq_ok h
  obtain ⟨rfl, -, hne, hall⟩ := valuesByPart_ok hvalues (by simp)
  have hparts : ∀ part ∈ parts, IsPlain (pathValues document part) ∨
      ∃ paths ∈ knownPaths, IsIndexed paths (pathValues document part) := fun part hpart =>
    hall _ (List.mem_map_of_mem hpart)
  have horder := compareKeys_isOrder parts
  cases knownPaths with
  | none =>
    have hplain : ∀ part ∈ parts, IsPlain (pathValues document part) := fun part hpart =>
      (hparts part hpart).resolve_right fun ⟨_, hpaths, _⟩ => (by cases hpaths)
    have hkey : keyOf parts document none = key := by
      simp only [List.map_map, Except.ok.injEq] at h
      exact h
    have hbranch := (isBranchKey_plain hplain key).mpr hkey
    refine ⟨hbranch, fun key' hbranch' => ?_⟩
    obtain rfl : key = key' := hkey.symm.trans ((isBranchKey_plain hplain key').mp hbranch')
    have hself := horder.1 key (hbranch.isKey hdocument) key (hbranch.isKey hdocument)
    rw [keyLE_iff (hbranch.isKey hdocument) (hbranch.isKey hdocument)]
    omega
  | some paths =>
    have hshared : ∀ part ∈ parts, IsPlain (pathValues document part) ∨ IsIndexed paths (pathValues document part) := by
      intro part hpart
      refine (hparts part hpart).imp_right ?_
      rintro ⟨_, ⟨⟩, hindexed⟩
      exact hindexed
    have hbranch := isBranchKey_indexed (hne paths rfl) hshared
    have hkeys : ∀ steps ∈ paths, IsKey parts (keyOf parts document (some steps)) := fun steps hsteps =>
      ((hbranch _).mpr ⟨steps, hsteps, rfl⟩).isKey hdocument
    cases paths with
    | nil => exact absurd rfl (hne [] rfl)
    | cons steps others =>
      have hkey : (others.map fun steps => keyOf parts document (some steps)).foldl
          (fun minimum key => if compareKeys parts key minimum < 0 then key else minimum)
          (keyOf parts document (some steps)) = key := by
        simp only [List.map_map, Except.ok.injEq] at h
        exact h
      obtain ⟨hmem, hle⟩ := horder.foldl_least (hkeys steps (.head _)) (l := others.map fun steps => keyOf parts document (some steps))
        (by
          intro key' hkey'
          obtain ⟨steps', hsteps', rfl⟩ := List.mem_map.mp hkey'
          exact hkeys steps' (.tail _ hsteps'))
      rw [hkey, ← List.map_cons (f := fun steps => keyOf parts document (some steps))] at hmem hle
      obtain ⟨steps', hsteps', hkey'⟩ := List.mem_map.mp hmem
      have hleast := (hbranch key).mpr ⟨steps', hsteps', hkey'⟩
      refine ⟨hleast, fun other hother => ?_⟩
      rw [keyLE_iff (hleast.isKey hdocument) (hother.isKey hdocument)]
      obtain ⟨steps'', hsteps'', rfl⟩ := (hbranch other).mp hother
      exact hle _ (List.mem_map_of_mem hsteps'')

end TypeFerry.Minimongo.SortKeys
