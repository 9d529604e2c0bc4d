import Mathlib.Data.List.Nodup

/-! # Maps that remember the order of insertion

The `Map` of JavaScript: setting a key that is there keeps its place, setting a
new one puts it last. No key stands twice. -/
namespace TypeFerry.Lib.OrderedMap

structure OMap (κ ν : Type*) where
  entries : List (κ × ν)
  nodup : (entries.map Prod.fst).Nodup

variable {κ ν : Type*} [DecidableEq κ]

instance [DecidableEq ν] : DecidableEq (OMap κ ν) := fun a b =>
  decidable_of_iff (a.entries = b.entries) (by cases a; cases b; simp)

/-- The value of the first entry under `k`. -/
def lookup (k : κ) : List (κ × ν) → Option ν
  | [] => none
  | (k', v) :: es => if k' = k then some v else lookup k es

/-- The entries with `v` under `k`. -/
def put (k : κ) (v : ν) : List (κ × ν) → List (κ × ν)
  | [] => [(k, v)]
  | (k', v') :: es => if k' = k then (k', v) :: es else (k', v') :: put k v es

theorem mem_keys_put {k : κ} {v : ν} {x : κ} : ∀ {es : List (κ × ν)},
    x ∈ (put k v es).map Prod.fst → x = k ∨ x ∈ es.map Prod.fst
  | [], h => by simpa [put] using h
  | (k', v') :: es, h => by
    rw [put] at h
    split at h
    · exact .inr (by simpa using h)
    · rw [List.map_cons, List.mem_cons] at h
      rcases h with h | h
      · exact .inr (by simp [h])
      · exact (mem_keys_put h).imp_right fun h => by simp [h]

theorem nodup_put {k : κ} {v : ν} : ∀ {es : List (κ × ν)}, (es.map Prod.fst).Nodup →
    ((put k v es).map Prod.fst).Nodup
  | [], _ => by simp [put]
  | (k', v') :: es, h => by
    rw [put]
    split
    · simpa using h
    · next hk =>
      obtain ⟨hnot, hnd⟩ := List.nodup_cons.mp h
      exact List.nodup_cons.mpr ⟨fun hm => (mem_keys_put hm).elim hk hnot, nodup_put hnd⟩

namespace OMap

def empty : OMap κ ν := ⟨[], List.nodup_nil⟩

instance : Inhabited (OMap κ ν) := ⟨empty⟩

def get (m : OMap κ ν) (k : κ) : Option ν := lookup k m.entries

def set (m : OMap κ ν) (k : κ) (v : ν) : OMap κ ν := ⟨put k v m.entries, nodup_put m.nodup⟩

def delete (m : OMap κ ν) (k : κ) : OMap κ ν :=
  ⟨m.entries.filter fun e => e.1 ≠ k, (List.filter_sublist.map Prod.fst).nodup m.nodup⟩

def size (m : OMap κ ν) : Nat := m.entries.length

def values (m : OMap κ ν) : List ν := m.entries.map Prod.snd

/-- Every value is changed in its place. -/
def mapValues (m : OMap κ ν) (f : ν → ν) : OMap κ ν :=
  ⟨m.entries.map fun e => (e.1, f e.2), by rw [List.map_map]; exact m.nodup⟩

/-- The entries whose values are kept. -/
def filterValues (m : OMap κ ν) (p : ν → Bool) : OMap κ ν :=
  ⟨m.entries.filter fun e => p e.2, (List.filter_sublist.map Prod.fst).nodup m.nodup⟩

end OMap

/-- The first value that meets `p` is changed in its place. -/
def changeFirst (p : ν → Bool) (f : ν → ν) : List (κ × ν) → List (κ × ν)
  | [] => []
  | (k, v) :: es => if p v then (k, f v) :: es else (k, v) :: changeFirst p f es

omit [DecidableEq κ] in
theorem keys_changeFirst (p : ν → Bool) (f : ν → ν) : ∀ es : List (κ × ν),
    (changeFirst p f es).map Prod.fst = es.map Prod.fst
  | [] => rfl
  | (k, v) :: es => by
    rw [changeFirst]
    split
    · rfl
    · rw [List.map_cons, keys_changeFirst p f es, List.map_cons]

def OMap.changeFirst (m : OMap κ ν) (p : ν → Bool) (f : ν → ν) : OMap κ ν :=
  ⟨OrderedMap.changeFirst p f m.entries, by rw [keys_changeFirst]; exact m.nodup⟩

/-! ## Lookup -/

theorem lookup_put (k k' : κ) (v : ν) : ∀ es : List (κ × ν),
    lookup k' (put k v es) = if k' = k then some v else lookup k' es
  | [] => by by_cases h : k = k' <;> simp [put, lookup, h, eq_comm]
  | (k₀, v₀) :: es => by
    rw [put]
    split
    · next h₀ =>
      subst h₀
      by_cases h : k₀ = k'
      · simp [lookup, h]
      · simp [lookup, h, Ne.symm h]
    · next h₀ =>
      rw [lookup, lookup, lookup_put k k' v es]
      by_cases h : k' = k
      · simp [h, h₀]
      · simp [h]

theorem lookup_filter (k k' : κ) : ∀ es : List (κ × ν),
    lookup k' (es.filter fun e => e.1 ≠ k) = if k' = k then none else lookup k' es
  | [] => by simp [lookup]
  | (k₀, v₀) :: es => by
    have ih := lookup_filter k k' es
    by_cases h₀ : k₀ = k
    · rw [List.filter_cons_of_neg (by simp [h₀]), ih, lookup]
      by_cases h : k' = k
      · simp [h]
      · simp [h, h₀, Ne.symm h]
    · rw [List.filter_cons_of_pos (by simp [h₀]), lookup, ih, lookup]
      by_cases h : k' = k
      · simp [h, h₀]
      · simp [h]

theorem lookup_eq_some {k : κ} {v : ν} : ∀ {es : List (κ × ν)}, (es.map Prod.fst).Nodup →
    (lookup k es = some v ↔ (k, v) ∈ es)
  | [], _ => by simp [lookup]
  | (k', v') :: es, h => by
    obtain ⟨hnot, hnd⟩ := List.nodup_cons.mp h
    rw [lookup]
    split
    · next hk =>
      subst hk
      have : (k', v) ∉ es := fun hm => hnot (List.mem_map.mpr ⟨_, hm, rfl⟩)
      simp [this, eq_comm]
    · next hk => simp [lookup_eq_some hnd, Ne.symm hk]

theorem length_put (k : κ) (v : ν) : ∀ es : List (κ × ν),
    (put k v es).length = if (lookup k es).isSome then es.length else es.length + 1
  | [] => by simp [put, lookup]
  | (k', v') :: es => by
    rw [put, lookup]
    split
    · simp
    · rw [List.length_cons, length_put k v es]
      split <;> simp

theorem lookup_map (f : ν → ν) (k : κ) : ∀ es : List (κ × ν),
    lookup k (es.map fun e => (e.1, f e.2)) = (lookup k es).map f
  | [] => rfl
  | (k', v) :: es => by
    rw [List.map_cons, lookup, lookup, lookup_map f k es]
    split <;> rfl

/-- Where one value at most meets `p`, it does not matter that the first is changed. -/
theorem lookup_changeFirst {p : ν → Bool} {f : ν → ν} {k : κ} : ∀ {es : List (κ × ν)},
    (∀ e ∈ es, ∀ e' ∈ es, p e.2 = true → p e'.2 = true → e.1 = e'.1) → (es.map Prod.fst).Nodup →
    lookup k (changeFirst p f es) = (lookup k es).map fun v => if p v then f v else v
  | [], _, _ => rfl
  | (k', v) :: es, honce, h => by
    obtain ⟨hnot, hnd⟩ := List.nodup_cons.mp h
    rw [changeFirst]
    split
    · next hp =>
      rw [lookup, lookup]
      split
      · simp [hp]
      · -- No other value meets `p`.
        cases hk : lookup k es with
        | none => rfl
        | some w =>
          have hw := (lookup_eq_some hnd).mp hk
          have hpw : p w ≠ true := fun hpw =>
            hnot (List.mem_map.mpr ⟨_, hw, (honce _ (by simp) _ (by simp [hw]) hp hpw).symm⟩)
          simp [hpw]
    · next hp =>
      rw [lookup, lookup]
      split
      · simp [hp]
      · exact lookup_changeFirst (fun e he e' he' => honce e (by simp [he]) e' (by simp [he'])) hnd

namespace OMap

@[simp] theorem get_empty (k : κ) : (empty : OMap κ ν).get k = none := rfl

theorem get_set (m : OMap κ ν) (k k' : κ) (v : ν) :
    (m.set k v).get k' = if k' = k then some v else m.get k' := lookup_put k k' v m.entries

@[simp] theorem get_set_self (m : OMap κ ν) (k : κ) (v : ν) : (m.set k v).get k = some v := by
  rw [get_set, if_pos rfl]

theorem get_delete (m : OMap κ ν) (k k' : κ) :
    (m.delete k).get k' = if k' = k then none else m.get k' := lookup_filter k k' m.entries

theorem get_eq_some {m : OMap κ ν} {k : κ} {v : ν} : m.get k = some v ↔ (k, v) ∈ m.entries :=
  lookup_eq_some m.nodup

theorem size_set (m : OMap κ ν) (k : κ) (v : ν) :
    (m.set k v).size = if (m.get k).isSome then m.size else m.size + 1 := length_put k v m.entries

theorem size_delete_le (m : OMap κ ν) (k : κ) : (m.delete k).size ≤ m.size :=
  List.length_filter_le _ m.entries

@[simp] theorem get_mapValues (m : OMap κ ν) (f : ν → ν) (k : κ) :
    (m.mapValues f).get k = (m.get k).map f := lookup_map f k m.entries

@[simp] theorem get_filterValues (m : OMap κ ν) (p : ν → Bool) (k : κ) :
    (m.filterValues p).get k = (m.get k).filter p := by
  refine Option.ext fun v => ?_
  rw [get_eq_some, Option.filter_eq_some_iff, get_eq_some]
  exact List.mem_filter

theorem get_changeFirst {m : OMap κ ν} {p : ν → Bool}
    (honce : ∀ k v k' v', m.get k = some v → m.get k' = some v' → p v = true → p v' = true → k = k')
    (f : ν → ν) (k : κ) :
    (m.changeFirst p f).get k = (m.get k).map fun v => if p v then f v else v :=
  lookup_changeFirst (fun e he e' he' => honce e.1 e.2 e'.1 e'.2 (get_eq_some.mpr he)
    (get_eq_some.mpr he')) m.nodup

theorem mem_values {m : OMap κ ν} {v : ν} : v ∈ m.values ↔ ∃ k, m.get k = some v := by
  simp [values, get_eq_some]

omit [DecidableEq κ] in
theorem ext {m m' : OMap κ ν} (h : m.entries = m'.entries) : m = m' := by
  cases m
  cases m'
  congr

/-- Setting the value that is there changes nothing. -/
theorem set_self {m : OMap κ ν} {k : κ} {v : ν} (h : m.get k = some v) : m.set k v = m := by
  have hput : ∀ es : List (κ × ν), lookup k es = some v → put k v es = es := by
    intro es hes
    induction es with
    | nil => cases hes
    | cons e es ih =>
      obtain ⟨k', v'⟩ := e
      rw [lookup] at hes
      rw [put]
      split at hes
      · next hk => rw [if_pos hk, Option.some.inj hes]
      · next hk => rw [if_neg hk, ih hes]
  exact ext (hput m.entries h)

/-! ### Many writes -/

/-- Every key gets its value, one after the other. -/
def setAll (m : OMap κ ν) (us : List (κ × ν)) : OMap κ ν := us.foldl (fun m u => m.set u.1 u.2) m

def deleteAll (m : OMap κ ν) (ks : List κ) : OMap κ ν := ks.foldl delete m

theorem get_setAll_of_notMem {k : κ} : ∀ {us : List (κ × ν)} (m : OMap κ ν),
    k ∉ us.map Prod.fst → (m.setAll us).get k = m.get k
  | [], _, _ => rfl
  | u :: us, m, h => by
    rw [List.map_cons, List.mem_cons, not_or] at h
    rw [setAll, List.foldl_cons, ← setAll, get_setAll_of_notMem _ h.2, get_set, if_neg h.1]

theorem get_setAll_of_mem {k : κ} {v : ν} : ∀ {us : List (κ × ν)} (m : OMap κ ν),
    (us.map Prod.fst).Nodup → (k, v) ∈ us → (m.setAll us).get k = some v
  | u :: us, m, hnd, h => by
    obtain ⟨hnot, hnd⟩ := List.nodup_cons.mp hnd
    rw [setAll, List.foldl_cons, ← setAll]
    rcases List.mem_cons.mp h with h | h
    · subst h
      rw [get_setAll_of_notMem _ hnot, get_set_self]
    · exact get_setAll_of_mem _ hnd h

/-- What is there after the writes was written or was there before. -/
theorem mem_of_get_setAll {k : κ} {v : ν} : ∀ {us : List (κ × ν)} {m : OMap κ ν},
    (m.setAll us).get k = some v → (k, v) ∈ us ∨ m.get k = some v
  | [], _, h => .inr h
  | u :: us, m, h => by
    rw [setAll, List.foldl_cons, ← setAll] at h
    rcases mem_of_get_setAll h with h | h
    · exact .inl (List.mem_cons_of_mem _ h)
    · rw [get_set] at h
      split at h
      · next hk =>
        rw [hk, ← Option.some.inj h]
        exact .inl List.mem_cons_self
      · exact .inr h

theorem get_deleteAll (k : κ) : ∀ (ks : List κ) (m : OMap κ ν),
    (m.deleteAll ks).get k = if k ∈ ks then none else m.get k
  | [], _ => rfl
  | k' :: ks, m => by
    rw [deleteAll, List.foldl_cons, ← deleteAll, get_deleteAll k ks, get_delete]
    by_cases hk : k = k' <;> simp [hk]

/-! ### What writes leave alone -/

theorem filter_keys_set {ks : List κ} {k : κ} (hk : k ∈ ks) (m : OMap κ ν) (v : ν) :
    (m.set k v).entries.filter (fun e => e.1 ∉ ks) = m.entries.filter fun e => e.1 ∉ ks := by
  have hput : ∀ es : List (κ × ν),
      (put k v es).filter (fun e => e.1 ∉ ks) = es.filter fun e => e.1 ∉ ks := by
    intro es
    induction es with
    | nil => simp [put, hk]
    | cons e es ih =>
      rw [put]
      split
      · next he => simp [he, hk]
      · rw [List.filter_cons, ih, List.filter_cons]
  exact hput m.entries

theorem filter_keys_delete {ks : List κ} {k : κ} (hk : k ∈ ks) (m : OMap κ ν) :
    (m.delete k).entries.filter (fun e => e.1 ∉ ks) = m.entries.filter fun e => e.1 ∉ ks := by
  rw [delete, List.filter_filter]
  refine List.filter_congr fun e _ => ?_
  by_cases he : e.1 = k
  · simp [he, hk]
  · simp [he]

theorem filter_keys_setAll {ks : List κ} : ∀ {us : List (κ × ν)} (m : OMap κ ν),
    (∀ u ∈ us, u.1 ∈ ks) →
      (m.setAll us).entries.filter (fun e => e.1 ∉ ks) = m.entries.filter fun e => e.1 ∉ ks
  | [], _, _ => rfl
  | u :: us, m, h => by
    rw [setAll, List.foldl_cons, ← setAll,
      filter_keys_setAll _ fun u' hu' => h u' (List.mem_cons_of_mem _ hu'),
      filter_keys_set (h u List.mem_cons_self)]

theorem filter_keys_deleteAll {ks : List κ} : ∀ {ks' : List κ} (m : OMap κ ν), (∀ k ∈ ks', k ∈ ks) →
    (m.deleteAll ks').entries.filter (fun e => e.1 ∉ ks) = m.entries.filter fun e => e.1 ∉ ks
  | [], _, _ => rfl
  | k :: ks', m, h => by
    rw [deleteAll, List.foldl_cons, ← deleteAll,
      filter_keys_deleteAll _ fun k' hk' => h k' (List.mem_cons_of_mem _ hk'),
      filter_keys_delete (h k List.mem_cons_self)]

/-! ### Images -/

section
variable {μ : Type*} {f : ν → μ} {m : OMap κ ν} {m' : OMap κ μ}

/-- Under every key there is the image of what the other map has there. The order does not matter. -/
def Image (f : ν → μ) (m : OMap κ ν) (m' : OMap κ μ) : Prop := ∀ k, m'.get k = (m.get k).map f

theorem Image.set (h : Image f m m') (k : κ) (v : ν) : Image f (m.set k v) (m'.set k (f v)) := by
  intro k'
  rw [get_set, get_set]
  split
  · rfl
  · exact h k'

theorem Image.mapValues (h : Image f m m') {g : ν → ν} {g' : μ → μ}
    (hg : ∀ x ∈ m.values, g' (f x) = f (g x)) : Image f (m.mapValues g) (m'.mapValues g') := by
  intro k
  rw [get_mapValues, get_mapValues, h k, Option.map_map, Option.map_map]
  exact Option.map_congr fun x hx => hg x (mem_values.mpr ⟨k, hx⟩)

theorem Image.filterValues (h : Image f m m') {p : ν → Bool} {p' : μ → Bool}
    (hp : ∀ x ∈ m.values, p' (f x) = p x) : Image f (m.filterValues p) (m'.filterValues p') := by
  intro k
  rw [get_filterValues, get_filterValues, h k]
  cases hx : m.get k with
  | none => rfl
  | some x =>
    simp only [Option.map_some, Option.filter_some, hp x (mem_values.mpr ⟨k, hx⟩)]
    split <;> rfl

/-- The two maps have the same values, up to their order. -/
theorem Image.values_perm (h : Image f m m') : m'.values.Perm (m.values.map f) := by
  have hentries : m'.entries.Perm (m.entries.map fun e => (e.1, f e.2)) := by
    refine (List.perm_ext_iff_of_nodup (.of_map Prod.fst m'.nodup) (.of_map Prod.fst ?_)).mpr fun e => ?_
    · rw [List.map_map]
      exact m.nodup
    · rw [← get_eq_some, h e.1, Option.map_eq_some_iff, List.mem_map]
      constructor
      · rintro ⟨x, hx, hxe⟩
        exact ⟨(e.1, x), get_eq_some.mp hx, by rw [hxe]⟩
      · rintro ⟨e', he', rfl⟩
        exact ⟨e'.2, get_eq_some.mpr he', rfl⟩
  have hvalues := hentries.map Prod.snd
  rw [List.map_map] at hvalues
  rw [values, values, List.map_map]
  exact hvalues

theorem Image.set_comm {k k' : κ} {v v' : ν} (hne : k ≠ k') (h : Image f ((m.set k v).set k' v') m') :
    Image f ((m.set k' v').set k v) m' := by
  intro k''
  rw [h k'', get_set, get_set, get_set, get_set]
  split <;> split <;> first | rfl | exact absurd (‹k'' = k›.symm.trans ‹k'' = k'›) hne

theorem Image.changeFirst (h : Image f m m') {p : ν → Bool} {q : μ → Bool} {g : ν → ν} {u : μ → μ}
    (hp : ∀ x, q (f x) = p x) (hg : ∀ x, u (f x) = f (g x))
    (honce : ∀ k v k' v', m.get k = some v → m.get k' = some v' → p v = true → p v' = true → k = k') :
    Image f (m.mapValues fun x => if p x then g x else x) (m'.changeFirst q u) := by
  intro k
  rw [get_changeFirst, get_mapValues, h k, Option.map_map, Option.map_map]
  · refine Option.map_congr fun x _ => ?_
    simp only [Function.comp_apply, hp]
    split
    · exact hg x
    · rfl
  · intro k v k' v' hv hv' hpv hpv'
    rw [h k, Option.map_eq_some_iff] at hv
    rw [h k', Option.map_eq_some_iff] at hv'
    obtain ⟨x, hx, rfl⟩ := hv
    obtain ⟨x', hx', rfl⟩ := hv'
    exact honce k x k' x' hx hx' (hp x ▸ hpv) (hp x' ▸ hpv')

theorem Image.filter_perm (h : Image f m m') {p : ν → Bool} {q : μ → Bool}
    (hp : ∀ x ∈ m.values, q (f x) = p x) : (m'.values.filter q).Perm ((m.values.filter p).map f) := by
  have hfilter := h.values_perm.filter q
  rwa [List.filter_map, List.filter_congr (p := q ∘ f) hp] at hfilter

theorem Image.any_values (h : Image f m m') {p : ν → Bool} {q : μ → Bool}
    (hp : ∀ x ∈ m.values, q (f x) = p x) : m'.values.any q = m.values.any p := by
  rw [h.values_perm.any_eq, List.any_map, List.any_eq, List.any_eq]
  refine decide_eq_decide.mpr (exists_congr fun x => and_congr_right fun hx => ?_)
  rw [Function.comp_apply, hp x hx]

end

end OMap

/-- An order in which an unordered map may be iterated over. -/
structure RangeOrder (α : Type*) where
  order : List α → List α
  perm : ∀ xs, (order xs).Perm xs

/-- The order of insertion. -/
def RangeOrder.insertion {α : Type*} : RangeOrder α := ⟨id, fun _ => .refl _⟩

end TypeFerry.Lib.OrderedMap
