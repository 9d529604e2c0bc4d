import Mathlib
import TypeFerry.Lib.JsonText
import TypeFerry.Lib.OrderedMap

/-! # Recursion over schemas

A schema is a JSON object with schemas in its members: as the value of one, as its elements, or as the values of its
members. What is computed of a schema is computed of its members and of what there is for the schemas in them. -/
namespace TypeFerry.Lib.Schemas
open TypeFerry.Lib.Numeral TypeFerry.Lib.JsonText TypeFerry.Lib.OrderedMap

def elemsOf : Json → List Json
  | .arr xs => xs
  | _ => []

def membersOf : Json → List (Text × Json)
  | .obj ms => ms
  | _ => []

/-- The value of a member, with what there is for it, for its elements and for its members. -/
structure Argument (β : Type) where
  json : Json
  self : β
  elems : List β
  members : List (Text × β)

section
variable {β : Type} (node : List (Text × Argument β) → β) (leaf : Json → β)

mutual

def fold : Json → β
  | .obj ms => node (foldArguments ms)
  | j => leaf j

def foldArguments : List (Text × Json) → List (Text × Argument β)
  | [] => []
  | (k, j) :: ms =>
    (k, ⟨j, fold j, match j with | .arr xs => foldElems xs | _ => [],
      match j with | .obj ns => foldMembers ns | _ => []⟩) :: foldArguments ms

def foldElems : List Json → List β
  | [] => []
  | j :: js => fold j :: foldElems js

def foldMembers : List (Text × Json) → List (Text × β)
  | [] => []
  | (k, j) :: ms => (k, fold j) :: foldMembers ms

end

def argument (j : Json) : Argument β :=
  ⟨j, fold node leaf j, (elemsOf j).map (fold node leaf), (membersOf j).map fun m => (m.1, fold node leaf m.2)⟩

theorem foldElems_eq (xs : List Json) : foldElems node leaf xs = xs.map (fold node leaf) := by
  induction xs with
  | nil => rfl
  | cons x xs ih => rw [foldElems, ih, List.map_cons]

theorem foldMembers_eq (ms : List (Text × Json)) :
    foldMembers node leaf ms = ms.map fun m => (m.1, fold node leaf m.2) := by
  induction ms with
  | nil => rfl
  | cons m ms ih =>
    obtain ⟨k, j⟩ := m
    rw [foldMembers, ih, List.map_cons]

theorem foldArguments_eq (ms : List (Text × Json)) :
    foldArguments node leaf ms = ms.map fun m => (m.1, argument node leaf m.2) := by
  induction ms with
  | nil => rfl
  | cons m ms ih =>
    obtain ⟨k, j⟩ := m
    cases j with
    | arr xs =>
      rw [foldArguments, ih, foldElems_eq]
      rfl
    | obj ns =>
      rw [foldArguments, ih, foldMembers_eq]
      rfl
    | _ =>
      rw [foldArguments, ih]
      rfl
      all_goals rintro _ ⟨⟩

theorem fold_obj (ms : List (Text × Json)) :
    fold node leaf (.obj ms) = node (ms.map fun m => (m.1, argument node leaf m.2)) := by
  rw [fold, foldArguments_eq]

end

/-! ## Induction -/

/-- The value itself, an element of it or the value of a member. -/
inductive Inside : Json → Json → Prop
  | self {x : Json} : Inside x x
  | elem {xs : List Json} {x : Json} : x ∈ xs → Inside x (.arr xs)
  | member {ms : List (Text × Json)} {k : Text} {x : Json} : (k, x) ∈ ms → Inside x (.obj ms)

/-- `x` may be a schema in the schema `j`. -/
def Within (x j : Json) : Prop := ∃ k y, (k, y) ∈ membersOf j ∧ Inside x y

theorem Inside.sizeOf_le {x y : Json} (h : Inside x y) : sizeOf x ≤ sizeOf y := by
  cases h with
  | self => exact le_rfl
  | elem hx =>
    have hx := List.sizeOf_lt_of_mem hx
    simp only [Json.arr.sizeOf_spec]
    omega
  | member hx =>
    have hx := List.sizeOf_lt_of_mem hx
    simp only [Prod.mk.sizeOf_spec, Json.obj.sizeOf_spec] at hx ⊢
    omega

theorem Within.sizeOf_lt {x j : Json} (h : Within x j) : sizeOf x < sizeOf j := by
  obtain ⟨k, y, hy, hx⟩ := h
  cases j with
  | obj ms =>
    have hms : (k, y) ∈ ms := hy
    have hy := List.sizeOf_lt_of_mem hms
    have hx := hx.sizeOf_le
    simp only [Prod.mk.sizeOf_spec, Json.obj.sizeOf_spec] at hy ⊢
    omega
  | _ => cases hy

theorem within_induction {P : Json → Prop} (h : ∀ j, (∀ x, Within x j → P x) → P j) (j : Json) : P j :=
  h j fun x _ => within_induction h x
termination_by sizeOf j
decreasing_by exact Within.sizeOf_lt ‹_›

/-! ## Deep equality -/

mutual

/-- Equality up to the order of members. -/
def deepEqual : Json → Json → Bool
  | .null, .null => true
  | .bool a, .bool b => a == b
  | .num a, .num b => a == b
  | .str a, .str b => a == b
  | .arr xs, .arr ys => deepEqualElems xs ys
  | .obj ms, .obj ns => ms.length == ns.length && deepEqualMembers ms ns
  | _, _ => false

def deepEqualElems : List Json → List Json → Bool
  | [], [] => true
  | x :: xs, y :: ys => deepEqual x y && deepEqualElems xs ys
  | _, _ => false

def deepEqualMembers : List (Text × Json) → List (Text × Json) → Bool
  | [], _ => true
  | (k, x) :: ms, ns => (lookup k ns).any (deepEqual x) && deepEqualMembers ms ns

end

theorem deepEqualElems_iff {xs ys : List Json} :
    deepEqualElems xs ys = true ↔ List.Forall₂ (fun x y => deepEqual x y = true) xs ys := by
  induction xs generalizing ys with
  | nil =>
    cases ys with
    | nil => exact iff_of_true rfl .nil
    | cons y ys => exact iff_of_false (fun h => by cases h) fun h => by cases h
  | cons x xs ih =>
    cases ys with
    | nil => exact iff_of_false (fun h => by cases h) fun h => by cases h
    | cons y ys => rw [deepEqualElems, Bool.and_eq_true, ih, List.forall₂_cons]

theorem deepEqualMembers_iff {ms ns : List (Text × Json)} :
    deepEqualMembers ms ns = true ↔ ∀ m ∈ ms, ∃ y, lookup m.1 ns = some y ∧ deepEqual m.2 y = true := by
  induction ms with
  | nil => exact iff_of_true rfl (List.forall_mem_nil _)
  | cons m ms ih =>
    obtain ⟨k, x⟩ := m
    rw [deepEqualMembers, Bool.and_eq_true, ih, List.forall_mem_cons, Option.any_eq_true]

theorem lookup_eq_none {ν : Type} {k : Text} {ms : List (Text × ν)} : lookup k ms = none ↔ k ∉ ms.map Prod.fst := by
  induction ms with
  | nil => simp [lookup]
  | cons m ms ih =>
    obtain ⟨k', v⟩ := m
    rw [lookup, List.map_cons, List.mem_cons, not_or]
    split
    · next hk => simp [hk]
    · next hk => rw [ih, and_iff_right (Ne.symm hk)]

/-- The members of deeply equal objects are deeply equal, name by name. -/
theorem lookup_deepEqual {ms ns : List (Text × Json)} (h : deepEqual (.obj ms) (.obj ns) = true)
    (hms : (ms.map Prod.fst).Nodup) (hns : (ns.map Prod.fst).Nodup) (k : Text) :
    Option.Rel (fun x y => deepEqual x y = true) (lookup k ms) (lookup k ns) := by
  rw [deepEqual, Bool.and_eq_true, beq_iff_eq, deepEqualMembers_iff] at h
  obtain ⟨hlength, hmembers⟩ := h
  cases hk : lookup k ms with
  | some x =>
    obtain ⟨y, hy, hxy⟩ := hmembers _ ((lookup_eq_some hms).mp hk)
    rw [hy]
    exact .some hxy
  | none =>
    have hsub : ms.map Prod.fst ⊆ ns.map Prod.fst := by
      intro k' hk'
      obtain ⟨m, hm, rfl⟩ := List.mem_map.mp hk'
      obtain ⟨y, hy, -⟩ := hmembers m hm
      exact List.mem_map.mpr ⟨_, (lookup_eq_some hns).mp hy, rfl⟩
    have hperm := (List.subperm_of_subset hms hsub).perm_of_length_le (by simp [hlength])
    have hnone : lookup k ns = none := lookup_eq_none.mpr fun hin => lookup_eq_none.mp hk (hperm.mem_iff.mpr hin)
    rw [hnone]
    exact .none

/-! ## A recursion that the order of members does not matter to -/

section
variable {β : Type}

structure AlikeArgument (a b : Argument β) : Prop where
  json : deepEqual a.json b.json = true
  self : a.self = b.self
  elems : a.elems = b.elems
  members : a.members.Perm b.members

/-- The members have one name each, and are alike under each name. -/
structure Alike (as bs : List (Text × Argument β)) : Prop where
  left : (as.map Prod.fst).Nodup
  right : (bs.map Prod.fst).Nodup
  lookup (k : Text) : Option.Rel AlikeArgument (lookup k as) (lookup k bs)

theorem wf_of_mem {ms : List (Text × Json)} (h : WFMembers ms) {m : Text × Json} (hm : m ∈ ms) : WF m.2 := by
  induction ms with
  | nil => cases hm
  | cons m' ms ih =>
    rcases List.mem_cons.mp hm with rfl | hm
    · exact h.1
    · exact ih h.2 hm

theorem wf_of_mem_elems {xs : List Json} (h : WFElems xs) {x : Json} (hx : x ∈ xs) : WF x := by
  induction xs with
  | nil => cases hx
  | cons x' xs ih =>
    rcases List.mem_cons.mp hx with rfl | hx
    · exact h.1
    · exact ih h.2 hx

theorem wf_inside {x y : Json} (h : WF y) (hx : Inside x y) : WF x := by
  cases hx with
  | self => exact h
  | elem hx => exact wf_of_mem_elems h hx
  | member hx => exact wf_of_mem h.2 hx

theorem wf_within {x j : Json} (h : WF j) (hx : Within x j) : WF x := by
  obtain ⟨k, y, hy, hx⟩ := hx
  cases j with
  | obj ms => exact wf_inside (wf_of_mem h.2 hy) hx
  | _ => cases hy

theorem keys_map {γ δ : Type} (f : γ → δ) (ms : List (Text × γ)) :
    (ms.map fun m => (m.1, f m.2)).map Prod.fst = ms.map Prod.fst := by
  rw [List.map_map]
  rfl

theorem lookup_members {γ δ : Type} (f : γ → δ) (k : Text) (ms : List (Text × γ)) :
    lookup k (ms.map fun m => (m.1, f m.2)) = (lookup k ms).map f := by
  induction ms with
  | nil => rfl
  | cons m ms ih =>
    rw [List.map_cons, lookup, lookup, ih]
    split <;> rfl

theorem map_elems {f : Json → β} {xs ys : List Json} (h : List.Forall₂ (fun x y => deepEqual x y = true) xs ys)
    (hf : ∀ x ∈ xs, ∀ y ∈ ys, deepEqual x y = true → f x = f y) : xs.map f = ys.map f := by
  induction h with
  | nil => rfl
  | cons hxy _ ih =>
    rw [List.map_cons, List.map_cons, hf _ (List.mem_cons_self ..) _ (List.mem_cons_self ..) hxy]
    exact congrArg _ (ih fun x hx y hy => hf x (List.mem_cons_of_mem _ hx) y (List.mem_cons_of_mem _ hy))

theorem perm_members {f : Json → β} {ms ns : List (Text × Json)} (hms : (ms.map Prod.fst).Nodup)
    (hns : (ns.map Prod.fst).Nodup)
    (h : ∀ k, Option.Rel (fun x y => f x = f y) (lookup k ms) (lookup k ns)) :
    (ms.map fun m => (m.1, f m.2)).Perm (ns.map fun m => (m.1, f m.2)) := by
  have hkeys : ∀ {ms : List (Text × Json)}, (ms.map Prod.fst).Nodup →
      ((ms.map fun m => (m.1, f m.2)).map Prod.fst).Nodup := fun h => by rwa [keys_map]
  refine (List.perm_ext_iff_of_nodup (hkeys hms).of_map (hkeys hns).of_map).mpr fun m => ?_
  obtain ⟨k, b⟩ := m
  rw [← lookup_eq_some (hkeys hms), ← lookup_eq_some (hkeys hns), lookup_members, lookup_members]
  have hk := h k
  generalize lookup k ms = x at hk ⊢
  generalize lookup k ns = y at hk ⊢
  cases hk with
  | some hxy => rw [Option.map_some, Option.map_some, hxy]
  | none => exact Iff.rfl

section
variable {node : List (Text × Argument β) → β} {leaf : Json → β}

theorem alike_argument {x y : Json}
    (ih : ∀ z, Inside z x → ∀ w, deepEqual z w = true → WF z → WF w → fold node leaf z = fold node leaf w)
    (hxy : deepEqual x y = true) (hx : WF x) (hy : WF y) :
    AlikeArgument (argument node leaf x) (argument node leaf y) := by
  refine ⟨hxy, ih x .self y hxy hx hy, ?_, ?_⟩
  · cases x with
    | arr xs =>
      cases y with
      | arr ys =>
        rw [deepEqual, deepEqualElems_iff] at hxy
        refine map_elems hxy fun z hz w hw hzw => ?_
        exact ih z (.elem hz) w hzw (wf_of_mem_elems hx hz) (wf_of_mem_elems hy hw)
      | _ => cases hxy
    | _ => cases y <;> first | rfl | cases hxy
  · cases x with
    | obj xs =>
      cases y with
      | obj ys =>
        suffices h : ∀ k, Option.Rel (fun z w => fold node leaf z = fold node leaf w) (lookup k xs) (lookup k ys) from
          perm_members hx.1 hy.1 h
        intro k
        have hk := lookup_deepEqual hxy hx.1 hy.1 k
        cases hz : lookup k xs with
        | none =>
          cases hw : lookup k ys with
          | none => exact .none
          | some w => rw [hz, hw] at hk; cases hk
        | some z =>
          cases hw : lookup k ys with
          | none => rw [hz, hw] at hk; cases hk
          | some w =>
            rw [hz, hw, Option.rel_some_some] at hk
            have hzxs := (lookup_eq_some hx.1).mp hz
            have hwys := (lookup_eq_some hy.1).mp hw
            exact .some (ih z (.member hzxs) w hk (wf_of_mem hx.2 hzxs) (wf_of_mem hy.2 hwys))
      | _ => cases hxy
    | _ => cases y <;> first | exact .nil | cases hxy

theorem fold_congr (hnode : ∀ as bs, Alike as bs → node as = node bs)
    (hleaf : ∀ i j, deepEqual i j = true → leaf i = leaf j) (i : Json) :
    ∀ j, deepEqual i j = true → WF i → WF j → fold node leaf i = fold node leaf j := by
  induction i using within_induction with | _ i ih
  intro j h hi hj
  cases i with
  | obj ms =>
    cases j with
    | obj ns =>
      rw [fold_obj, fold_obj]
      refine hnode _ _ ⟨by rw [keys_map]; exact hi.1, by rw [keys_map]; exact hj.1, fun k => ?_⟩
      rw [lookup_members, lookup_members]
      have hk := lookup_deepEqual h hi.1 hj.1 k
      cases hx : lookup k ms with
      | none =>
        cases hy : lookup k ns with
        | none => exact .none
        | some y => rw [hx, hy] at hk; cases hk
      | some x =>
        cases hy : lookup k ns with
        | none => rw [hx, hy] at hk; cases hk
        | some y =>
          rw [hx, hy, Option.rel_some_some] at hk
          have hxms := (lookup_eq_some hi.1).mp hx
          have hyns := (lookup_eq_some hj.1).mp hy
          refine .some (alike_argument (fun z hz => ih z ⟨k, x, hxms, hz⟩) hk ?_ ?_)
          · exact wf_of_mem hi.2 hxms
          · exact wf_of_mem hj.2 hyns
    | _ => cases h
  | _ => cases j <;> first | exact hleaf _ _ h | cases h

end

end

/-! ## Members -/

theorem wfElems_iff {xs : List Json} : WFElems xs ↔ ∀ x ∈ xs, WF x := by
  induction xs with
  | nil => exact iff_of_true trivial (List.forall_mem_nil _)
  | cons x xs ih => rw [WFElems, ih, List.forall_mem_cons]

theorem wfMembers_iff {ms : List (Text × Json)} : WFMembers ms ↔ ∀ m ∈ ms, WF m.2 := by
  induction ms with
  | nil => exact iff_of_true trivial (List.forall_mem_nil _)
  | cons m ms ih =>
    obtain ⟨k, x⟩ := m
    rw [WFMembers, ih, List.forall_mem_cons]

theorem mem_key {ν : Type} {k : Text} {ms : List (Text × ν)} : k ∈ ms.map Prod.fst ↔ (lookup k ms).isSome = true := by
  rw [Option.isSome_iff_ne_none, ne_eq, lookup_eq_none, not_not]

theorem mem_of_lookup {ν : Type} {k : Text} {v : ν} {ms : List (Text × ν)} (h : lookup k ms = some v) :
    (k, v) ∈ ms := by
  induction ms with
  | nil => cases h
  | cons m ms ih =>
    obtain ⟨k', v'⟩ := m
    rw [lookup] at h
    split at h
    · next hk =>
      cases h
      rw [hk]
      exact List.mem_cons_self ..
    · exact List.mem_cons_of_mem _ (ih h)

theorem put_members {γ δ : Type} (f : γ → δ) (k : Text) (v : γ) (ms : List (Text × γ)) :
    put k (f v) (ms.map fun m => (m.1, f m.2)) = (put k v ms).map fun m => (m.1, f m.2) := by
  induction ms with
  | nil => rfl
  | cons m ms ih =>
    obtain ⟨k', v'⟩ := m
    rw [List.map_cons, put, put]
    split
    · rfl
    · rw [ih, List.map_cons]

theorem filter_members {γ δ : Type} (f : γ → δ) (k : Text) (ms : List (Text × γ)) :
    (ms.map fun m => (m.1, f m.2)).filter (fun m => m.1 ≠ k) =
      (ms.filter fun m => m.1 ≠ k).map fun m => (m.1, f m.2) := by
  rw [List.filter_map]
  rfl

theorem mem_put {ν : Type} {k : Text} {v : ν} {m : Text × ν} {ms : List (Text × ν)} (h : m ∈ put k v ms) :
    m = (k, v) ∨ m ∈ ms := by
  induction ms with
  | nil => exact .inl (List.mem_singleton.mp h)
  | cons m' ms ih =>
    obtain ⟨k', v'⟩ := m'
    rw [put] at h
    split at h
    · next hk =>
      rcases List.mem_cons.mp h with rfl | h
      · exact .inl (by rw [hk])
      · exact .inr (List.mem_cons_of_mem _ h)
    · rcases List.mem_cons.mp h with rfl | h
      · exact .inr (List.mem_cons_self ..)
      · exact (ih h).imp_right (List.mem_cons_of_mem _)

theorem mem_foldl_put {ν : Type} {m : Text × ν} {ms acc : List (Text × ν)}
    (h : m ∈ ms.foldl (fun result m => put m.1 m.2 result) acc) : m ∈ ms ∨ m ∈ acc := by
  induction ms generalizing acc with
  | nil => exact .inr h
  | cons m' ms ih =>
    rw [List.foldl_cons] at h
    rcases ih h with h | h
    · exact .inl (List.mem_cons_of_mem _ h)
    · rcases mem_put h with rfl | h
      · exact .inl (List.mem_cons_self ..)
      · exact .inr h

theorem nodup_foldl_put {ν : Type} {ms acc : List (Text × ν)} (h : (acc.map Prod.fst).Nodup) :
    ((ms.foldl (fun result m => put m.1 m.2 result) acc).map Prod.fst).Nodup := by
  induction ms generalizing acc with
  | nil => exact h
  | cons m ms ih => exact ih (nodup_put h)

theorem foldl_put {ν : Type} {ms acc : List (Text × ν)} (h : ((acc ++ ms).map Prod.fst).Nodup) :
    ms.foldl (fun result m => put m.1 m.2 result) acc = acc ++ ms := by
  induction ms generalizing acc with
  | nil => exact (List.append_nil acc).symm
  | cons m ms ih =>
    obtain ⟨k, v⟩ := m
    have hk : k ∉ acc.map Prod.fst := by
      rw [List.map_append, List.nodup_append] at h
      exact fun hin => h.2.2 k hin k (List.mem_cons_self ..) rfl
    have hput : ∀ acc : List (Text × ν), k ∉ acc.map Prod.fst → put k v acc = acc ++ [(k, v)] := by
      intro acc hk
      induction acc with
      | nil => rfl
      | cons m acc ih =>
        obtain ⟨k', v'⟩ := m
        rw [List.map_cons, List.mem_cons, not_or] at hk
        rw [put, if_neg (Ne.symm hk.1), ih hk.2, List.cons_append]
    rw [List.foldl_cons, hput acc hk, ih (by rwa [List.append_assoc]), List.append_assoc]
    rfl

theorem exists_left {α β : Type} {R : α → β → Prop} {xs : List α} {ys : List β} (h : List.Forall₂ R xs ys) {y : β}
    (hy : y ∈ ys) : ∃ x ∈ xs, R x y := by
  induction h with
  | nil => cases hy
  | cons hxy _ ih =>
    rcases List.mem_cons.mp hy with rfl | hy
    · exact ⟨_, List.mem_cons_self .., hxy⟩
    · obtain ⟨x, hx, hxy⟩ := ih hy
      exact ⟨x, List.mem_cons_of_mem _ hx, hxy⟩

end TypeFerry.Lib.Schemas
