import TypeFerry.Minimongo.Cursors
import TypeFerry.Minimongo.Representation

/-! # Exclusion projections

An exclusion projection should remove the fields at its paths and leave everything else as it is. The rules of
`projectionDetails` are the paths as a tree. `applyRuleTree` walks it into values that have no fields, and makes empty
objects of them. -/
namespace TypeFerry.Minimongo.Exclusion
open TypeFerry.Lib.Numeral TypeFerry.Lib.JsonText TypeFerry.Ejson.Clone TypeFerry.Ejson.Canonical
open TypeFerry.Ejson.Encode TypeFerry.Minimongo.Values TypeFerry.Minimongo.Modifier TypeFerry.Minimongo.Cursors
open TypeFerry.Minimongo.Representation

/-! ## Removing fields -/

/-- What the paths are below a key. -/
def below (key : Text) (paths : List (List Text)) : List (List Text) :=
  paths.filterMap fun
    | part :: rest => if part = key then some rest else none
    | [] => none

mutual

/-- Without the fields at the paths. A path that meets an array goes on in each of its elements. -/
def remove : List (List Text) → Value → Value
  | paths, .arr xs => .arr (removeElems paths xs)
  | paths, .obj ms => .obj (removeEntries paths ms)
  | _, v => v

def removeElems : List (List Text) → List Value → List Value
  | _, [] => []
  | paths, x :: xs => remove paths x :: removeElems paths xs

def removeEntries : List (List Text) → List (Text × Value) → List (Text × Value)
  | _, [] => []
  | paths, (k, v) :: ms =>
    if [] ∈ below k paths then removeEntries paths ms
    else (k, remove (below k paths) v) :: removeEntries paths ms

end

mutual

/-- A path goes on in a value that has no fields: a date, bytes or a regular expression, or any scalar that is an
element of an array. -/
def meetsLeaf : List (List Text) → Value → Bool
  | paths, .arr xs => meetsLeafElems paths xs
  | paths, .obj ms => meetsLeafEntries paths ms
  | _, .undefined | _, .null => false
  | _, _ => true

def meetsLeafElems : List (List Text) → List Value → Bool
  | _, [] => false
  | paths, x :: xs => meetsLeaf paths x || meetsLeafElems paths xs

def meetsLeafEntries : List (List Text) → List (Text × Value) → Bool
  | _, [] => false
  | paths, (k, v) :: ms =>
    (!(below k paths).isEmpty && [] ∉ below k paths && v.isObjectAndNotNull && meetsLeaf (below k paths) v) ||
      meetsLeafEntries paths ms

end

mutual

/-- An object has an own property `__proto__`. -/
def hasProto : Value → Bool
  | .arr xs => hasProtoElems xs
  | .obj ms => hasProtoEntries ms
  | _ => false

def hasProtoElems : List Value → Bool
  | [] => false
  | x :: xs => hasProto x || hasProtoElems xs

def hasProtoEntries : List (Text × Value) → Bool
  | [] => false
  | (k, v) :: ms => k = js "__proto__" || hasProto v || hasProtoEntries ms

end

mutual

/-- Objects as they are built: no key stands twice, and array indices come first. -/
def Built : Value → Prop
  | .arr xs => BuiltElems xs
  | .obj ms => (ms.map Prod.fst).Nodup ∧ enumerate ms = ms ∧ BuiltEntries ms
  | _ => True

def BuiltElems : List Value → Prop
  | [] => True
  | x :: xs => Built x ∧ BuiltElems xs

def BuiltEntries : List (Text × Value) → Prop
  | [] => True
  | (_, v) :: ms => Built v ∧ BuiltEntries ms

end

/-! ## Rules are paths -/

theorem mem_below {key : Text} {rest : List Text} {paths : List (List Text)} :
    rest ∈ below key paths ↔ key :: rest ∈ paths := by
  simp only [below, List.mem_filterMap]
  constructor
  · rintro ⟨path, hpath, h⟩
    cases path with
    | nil => cases h
    | cons part rest' =>
      dsimp only at h
      split at h
      · next hpart =>
        cases h
        rw [← hpart]
        exact hpath
      · cases h
  · exact fun h => ⟨key :: rest, h, if_pos rfl⟩

mutual

/-- The paths of a rule. -/
def rulePaths : Value → List (List Text)
  | .obj tree => treePaths tree
  | _ => [[]]

def treePaths : List (Text × Value) → List (List Text)
  | [] => []
  | (k, rule) :: tree => (rulePaths rule).map (k :: ·) ++ treePaths tree

end

mutual

/-- A rule that `projectionDetails` makes: no key stands twice, and each one leads somewhere. -/
def IsRule : Value → Prop
  | .bool _ => True
  | .obj tree => tree ≠ [] ∧ IsTree tree
  | _ => False

def IsTree : List (Text × Value) → Prop
  | [] => True
  | (k, rule) :: tree => k ∉ tree.map Prod.fst ∧ k ≠ js "__proto__" ∧ IsRule rule ∧ IsTree tree

end

theorem mem_treePaths {path : List Text} {tree : List (Text × Value)} :
    path ∈ treePaths tree ↔ ∃ e ∈ tree, ∃ rest ∈ rulePaths e.2, path = e.1 :: rest := by
  induction tree with
  | nil => simp [treePaths]
  | cons e tree ih =>
    rw [treePaths, List.mem_append, ih, List.mem_map]
    simp only [List.exists_mem_cons_iff, eq_comm]

theorem isTree_iff {tree : List (Text × Value)} :
    IsTree tree ↔ (tree.map Prod.fst).Nodup ∧ ∀ e ∈ tree, e.1 ≠ js "__proto__" ∧ IsRule e.2 := by
  induction tree with
  | nil => simp [IsTree]
  | cons e tree ih =>
    rw [IsTree, ih, List.map_cons, List.nodup_cons, List.forall_mem_cons]
    tauto

theorem mem_below_treePaths {tree : List (Text × Value)} (h : IsTree tree) {key : Text} {rest : List Text} :
    rest ∈ below key (treePaths tree) ↔ ∃ rule, getOwn key tree = some rule ∧ rest ∈ rulePaths rule := by
  rw [mem_below, mem_treePaths]
  constructor
  · rintro ⟨⟨k, rule⟩, hmem, rest', hrest, heq⟩
    obtain ⟨rfl, rfl⟩ := List.cons.inj heq
    exact ⟨rule, getOwn_of_mem (isTree_iff.mp h).1 hmem, hrest⟩
  · rintro ⟨rule, hget, hrest⟩
    exact ⟨(key, rule), mem_of_getOwn hget, rest, hrest, rfl⟩

theorem nil_notMem_treePaths (tree : List (Text × Value)) : [] ∉ treePaths tree := by
  rw [mem_treePaths]
  rintro ⟨e, -, rest, -, h⟩
  cases h

theorem rulePaths_ne_nil : ∀ {rule : Value}, IsRule rule → rulePaths rule ≠ []
  | .bool _, _ => List.cons_ne_nil _ _
  | .obj ((k, rule) :: tree), h => by
    rw [rulePaths, treePaths]
    refine List.append_ne_nil_of_left_ne_nil ?_ _
    rw [ne_eq, List.map_eq_nil_iff]
    exact rulePaths_ne_nil h.2.2.2.1
  | .obj [], h => absurd rfl h.1

theorem eq_of_mem_nodup {ms : List (Text × Value)} (h : (ms.map Prod.fst).Nodup) {k : Text} {v w : Value}
    (hv : (k, v) ∈ ms) (hw : (k, w) ∈ ms) : v = w :=
  Option.some.inj ((getOwn_of_mem h hv).symm.trans (getOwn_of_mem h hw))

/-- Setting one property. -/
theorem mem_enumerate_assign {key : Text} (hkey : key ≠ js "__proto__") {x : Value} {ms : List (Text × Value)}
    (h : (ms.map Prod.fst).Nodup) (e : Text × Value) :
    e ∈ enumerate (assign key x ms) ↔ e = (key, x) ∨ e ∈ ms ∧ e.1 ≠ key := by
  rw [(enumerate_perm _).mem_iff, assign, if_neg hkey]
  constructor
  · intro he
    by_cases hek : e.1 = key
    · have hnodup : ((setMember key x ms).map Prod.fst).Nodup := nodup_setMember h
      obtain ⟨k, v⟩ := e
      obtain rfl : k = key := hek
      left
      rw [eq_of_mem_nodup hnodup he (mem_setMember_self ms)]
    · exact .inr ⟨(mem_setMember he).resolve_right fun heq => hek (by rw [heq]), hek⟩
  · rintro (rfl | ⟨he, hek⟩)
    · exact mem_setMember_self ms
    · exact mem_setMember_ne hek he

theorem tree_set {key : Text} (hkey : key ≠ js "__proto__") {rule : Value} (hrule : IsRule rule)
    {tree : List (Text × Value)} (h : IsTree tree) :
    IsTree (enumerate (assign key rule tree)) ∧ enumerate (assign key rule tree) ≠ [] ∧
      ∀ path, path ∈ treePaths (enumerate (assign key rule tree)) ↔
        (∃ rest ∈ rulePaths rule, path = key :: rest) ∨ path ∈ treePaths tree ∧ path.head? ≠ some key := by
  obtain ⟨hnodup, hrules⟩ := isTree_iff.mp h
  have hmem := mem_enumerate_assign hkey (x := rule) hnodup
  refine ⟨?_, ?_, fun path => ?_⟩
  · rw [isTree_iff]
    refine ⟨(keys_enumerate _).nodup_iff.mpr (nodup_assign hnodup), fun e he => ?_⟩
    rcases (hmem e).mp he with rfl | ⟨he, -⟩
    · exact ⟨hkey, hrule⟩
    · exact hrules e he
  · exact List.ne_nil_of_mem ((hmem (key, rule)).mpr (.inl rfl))
  · rw [mem_treePaths, mem_treePaths]
    constructor
    · rintro ⟨e, he, rest, hrest, rfl⟩
      rcases (hmem e).mp he with rfl | ⟨he, hne⟩
      · exact .inl ⟨rest, hrest, rfl⟩
      · exact .inr ⟨⟨e, he, rest, hrest, rfl⟩, fun heq => hne (Option.some.inj heq)⟩
    · rintro (⟨rest, hrest, rfl⟩ | ⟨⟨e, he, rest, hrest, rfl⟩, hne⟩)
      · exact ⟨(key, rule), (hmem _).mpr (.inl rfl), rest, hrest, rfl⟩
      · exact ⟨e, (hmem _).mpr (.inr ⟨he, fun heq => hne (congrArg some heq)⟩), rest, hrest, rfl⟩

/-- The paths of a tree that start with a key. -/
theorem mem_treePaths_head {tree : List (Text × Value)} (h : IsTree tree) {key : Text} {path : List Text}
    (hpath : path.head? = some key) :
    path ∈ treePaths tree ↔ ∃ rule, getOwn key tree = some rule ∧ ∃ rest ∈ rulePaths rule, path = key :: rest := by
  obtain ⟨rest, rfl⟩ : ∃ rest, path = key :: rest := ⟨path.tail, (List.cons_head?_tail hpath).symm⟩
  rw [← mem_below, mem_below_treePaths h]
  simp

/-- A rule is put at a key: its path is new, and the paths of the old rule at the key are kept. -/
theorem tree_insert {part : Text} (hpart : part ≠ js "__proto__") {rest : List Text} {rule : Value} (hrule : IsRule rule)
    {node : List (Text × Value)} (hnode : IsTree node)
    (hpaths : ∀ p, p ∈ rulePaths rule ↔ p = rest ∨ ∃ old, getOwn part node = some old ∧ p ∈ rulePaths old) :
    IsTree (enumerate (assign part rule node)) ∧ enumerate (assign part rule node) ≠ [] ∧
      ∀ p, p ∈ treePaths (enumerate (assign part rule node)) ↔ p = part :: rest ∨ p ∈ treePaths node := by
  obtain ⟨htree, hne, hmem⟩ := tree_set hpart hrule hnode
  refine ⟨htree, hne, fun p => ?_⟩
  rw [hmem]
  by_cases hhead : p.head? = some part
  · rw [mem_treePaths_head hnode hhead]
    constructor
    · rintro (⟨r, hr, rfl⟩ | ⟨-, hneg⟩)
      · rcases (hpaths r).mp hr with rfl | ⟨old, hold, hr⟩
        · exact .inl rfl
        · exact .inr ⟨old, hold, r, hr, rfl⟩
      · exact absurd hhead hneg
    · rintro (rfl | ⟨old, hold, r, hr, rfl⟩)
      · exact .inl ⟨rest, (hpaths rest).mpr (.inl rfl), rfl⟩
      · exact .inl ⟨r, (hpaths r).mpr (.inr ⟨old, hold, hr⟩), rfl⟩
  · constructor
    · rintro (⟨r, -, rfl⟩ | ⟨hp, -⟩)
      · exact absurd rfl hhead
      · exact .inr hp
    · rintro (rfl | hp)
      · exact absurd rfl hhead
      · exact .inr ⟨hp, hhead⟩

theorem insertRule_ok {including : Bool} {path : Text} : ∀ {parts seen : List Text} {node node' : List (Text × Value)},
    parts ≠ [] → js "__proto__" ∉ parts → insertRule including path seen parts node = .ok node' → IsTree node →
    IsTree node' ∧ node' ≠ [] ∧ ∀ p, p ∈ treePaths node' ↔ p = parts ∨ p ∈ treePaths node
  | part :: rest, seen, node, node', _, hproto, h, hnode => by
    obtain ⟨hpart, hrest⟩ := List.ne_and_not_mem_of_not_mem_cons hproto
    unfold insertRule at h
    cases hget : getOwn part node with
    | none =>
      rw [hget] at h
      cases rest with
      | nil =>
        cases h
        refine @tree_insert part hpart.symm _ (.bool including) trivial node hnode fun p => ?_
        simp [rulePaths, hget]
      | cons next rest =>
        obtain ⟨sub, hsub, h⟩ := bind_eq_ok h
        obtain ⟨htree, hne, hmem⟩ := insertRule_ok (List.cons_ne_nil _ _) hrest hsub trivial
        cases h
        refine @tree_insert part hpart.symm _ (.obj sub) ⟨hne, htree⟩ node hnode fun p => ?_
        rw [rulePaths, hmem, hget]
        simp [treePaths]
    | some old =>
      rw [hget] at h
      cases rest with
      | nil => cases old <;> cases h
      | cons next rest =>
        cases old with
        | obj child =>
          obtain ⟨sub, hsub, h⟩ := bind_eq_ok h
          have hchild : IsRule (.obj child) := ((isTree_iff.mp hnode).2 _ (mem_of_getOwn hget)).2
          obtain ⟨htree, hne, hmem⟩ := insertRule_ok (List.cons_ne_nil _ _) hrest hsub hchild.2
          cases h
          refine @tree_insert part hpart.symm _ (.obj sub) ⟨hne, htree⟩ node hnode fun p => ?_
          rw [rulePaths, hmem, hget]
          simp [rulePaths]
        | _ => cases h

theorem splitPath_ne_nil (path : Text) : splitPath path ≠ [] := List.splitOn_ne_nil 46 path

/-- The rules of a projection are its paths. -/
theorem insertRules_ok {including : Bool} {projection : List (Text × Value)} : ∀ {paths : List Text}
    {tree tree' : List (Text × Value)}, (∀ path ∈ paths, js "__proto__" ∉ splitPath path) →
    insertRules including projection paths tree = .ok tree' → IsTree tree →
    IsTree tree' ∧ ∀ p, p ∈ treePaths tree' ↔ p ∈ paths.map splitPath ∨ p ∈ treePaths tree
  | [], tree, tree', _, h, htree => by
    cases h
    exact ⟨htree, fun p => by simp⟩
  | path :: rest, tree, tree', hproto, h, htree => by
    rw [insertRules] at h
    split at h
    · cases h
    · obtain ⟨node, hnode, h⟩ := bind_eq_ok h
      obtain ⟨htree', -, hmem'⟩ := insertRule_ok (splitPath_ne_nil path) (hproto path (.head _)) hnode htree
      obtain ⟨htree'', hmem''⟩ := insertRules_ok (fun p hp => hproto p (.tail _ hp)) h htree'
      refine ⟨htree'', fun p => ?_⟩
      rw [hmem'', hmem', List.map_cons, List.mem_cons]
      tauto

/-! ## The order of the keys -/

/-- A key that is enumerated before another one. -/
def Precedes (k k' : Text) : Prop := ∀ j ∈ arrayIndex? k', ∃ i ∈ arrayIndex? k, i ≤ j

/-- `enumerate`, whatever the values are. -/
def inKeyOrder {α : Type} (ms : List (Text × α)) : List (Text × α) :=
  (ms.filter fun m => (arrayIndex? m.1).isSome).insertionSort
      (fun m n => (arrayIndex? m.1).getD 0 ≤ (arrayIndex? n.1).getD 0) ++
    ms.filter fun m => (arrayIndex? m.1).isNone

section
variable {α : Type}

theorem pairwise_inKeyOrder (ms : List (Text × α)) : ((inKeyOrder ms).map Prod.fst).Pairwise Precedes := by
  rw [List.pairwise_map, inKeyOrder, List.pairwise_append]
  have htotal : Std.Total fun m n : Text × α => (arrayIndex? m.1).getD 0 ≤ (arrayIndex? n.1).getD 0 :=
    ⟨fun _ _ => Nat.le_total _ _⟩
  have htrans : IsTrans (Text × α) fun m n => (arrayIndex? m.1).getD 0 ≤ (arrayIndex? n.1).getD 0 :=
    ⟨fun _ _ _ => Nat.le_trans⟩
  refine ⟨?_, ?_, ?_⟩
  · refine (List.pairwise_insertionSort _ _).imp_of_mem fun {m n} hm _ hle j hj => ?_
    rw [List.mem_insertionSort, List.mem_filter] at hm
    obtain ⟨i, hi⟩ := Option.isSome_iff_exists.mp hm.2
    rw [hi, Option.mem_def.mp hj] at hle
    exact ⟨i, hi, hle⟩
  · refine List.pairwise_of_forall_mem_list fun m _ n hn j hj => ?_
    rw [List.mem_filter, Option.mem_def.mp hj] at hn
    cases hn.2
  · intro m _ n hn j hj
    rw [List.mem_filter, Option.mem_def.mp hj] at hn
    cases hn.2

theorem inKeyOrder_eq_iff {ms : List (Text × α)} : inKeyOrder ms = ms ↔ (ms.map Prod.fst).Pairwise Precedes := by
  constructor
  · intro h
    rw [← h]
    exact pairwise_inKeyOrder ms
  · rw [List.pairwise_map]
    intro h
    have hsorted : (ms.filter fun m => (arrayIndex? m.1).isSome).Pairwise fun m n =>
        (arrayIndex? m.1).getD 0 ≤ (arrayIndex? n.1).getD 0 := by
      refine (h.filter _).imp_of_mem fun {m n} _ hn hmn => ?_
      obtain ⟨j, hj⟩ := Option.isSome_iff_exists.mp (List.mem_filter.mp hn).2
      obtain ⟨i, hi, hle⟩ := hmn j hj
      rw [hj, Option.mem_def.mp hi]
      exact hle
    rw [inKeyOrder, hsorted.insertionSort_eq]
    clear hsorted
    induction ms with
    | nil => rfl
    | cons m ms ih =>
      obtain ⟨hm, h⟩ := List.pairwise_cons.mp h
      cases hindex : arrayIndex? m.1 with
      | some i => simpa [List.filter_cons, hindex] using ih h
      | none =>
        -- No array index comes behind another key.
        have hrest : ∀ n ∈ ms, arrayIndex? n.1 = none := by
          intro n hn
          by_contra hne
          obtain ⟨j, hj⟩ := Option.ne_none_iff_exists'.mp hne
          obtain ⟨i, hi, -⟩ := hm n hn j hj
          rw [hindex] at hi
          cases hi
        rw [List.filter_eq_nil_iff.mpr, List.filter_eq_self.mpr, List.nil_append]
        · intro n hn
          rcases List.mem_cons.mp hn with rfl | hn
          · rw [hindex]
            rfl
          · rw [hrest n hn]
            rfl
        · intro n hn
          rcases List.mem_cons.mp hn with rfl | hn
          · rw [hindex]
            exact Bool.false_ne_true
          · rw [hrest n hn]
            exact Bool.false_ne_true

end

theorem pairwise_enumerate (ms : List (Text × Value)) : ((enumerate ms).map Prod.fst).Pairwise Precedes :=
  pairwise_inKeyOrder ms

theorem enumerate_eq_iff {ms : List (Text × Value)} : enumerate ms = ms ↔ (ms.map Prod.fst).Pairwise Precedes :=
  inKeyOrder_eq_iff

theorem enumerate_enumerate (ms : List (Text × Value)) : enumerate (enumerate ms) = enumerate ms :=
  enumerate_eq_iff.mpr (pairwise_enumerate ms)

/-- Keys are kept, or dropped with their values. -/
def KeepsKeys (f : Text × Value → Option (Text × Value)) : Prop := ∀ m, ∀ n ∈ f m, n.1 = m.1

theorem keys_filterMap {f : Text × Value → Option (Text × Value)} (hf : KeepsKeys f) (ms : List (Text × Value)) :
    ((ms.filterMap f).map Prod.fst).Sublist (ms.map Prod.fst) := by
  induction ms with
  | nil => exact List.Sublist.refl _
  | cons m ms ih =>
    rw [List.filterMap_cons]
    cases hm : f m with
    | none => exact ih.cons _
    | some n =>
      dsimp only
      rw [List.map_cons, List.map_cons, hf m n hm]
      exact ih.cons_cons _

theorem enumerate_filterMap {f : Text × Value → Option (Text × Value)} (hf : KeepsKeys f) {ms : List (Text × Value)}
    (h : enumerate ms = ms) : enumerate (ms.filterMap f) = ms.filterMap f :=
  enumerate_eq_iff.mpr ((enumerate_eq_iff.mp h).sublist (keys_filterMap hf ms))

/-! ## What the rules do -/

/-- What a copy keeps of a member. -/
def copied (m : Text × Value) : Option (Text × Value) :=
  if m.1 = js "__proto__" then none else some (m.1, cloneValue m.2)

theorem keepsKeys_copied : KeepsKeys copied := by
  intro m n hn
  unfold copied at hn
  split at hn
  · cases hn
  · cases hn
    rfl

theorem foldl_rebuild : ∀ {es acc : List (Text × Value)}, (acc.map Prod.fst ++ es.map Prod.fst).Nodup →
    es.foldl (fun ret m => assign m.1 m.2 ret) acc = acc ++ es.filter fun m => m.1 ≠ js "__proto__"
  | [], acc, _ => by simp
  | (k, v) :: es, acc, h => by
    have hrest : (acc.map Prod.fst ++ es.map Prod.fst).Nodup :=
      h.sublist (List.Sublist.append_left (List.sublist_cons_self _ _) _)
    rw [List.foldl_cons, assign]
    by_cases hk : k = js "__proto__"
    · rw [if_pos hk, foldl_rebuild hrest, List.filter_cons_of_neg (by simp [hk])]
    · have hfresh : k ∉ acc.map Prod.fst := fun hmem => (List.nodup_append.mp h).2.2 k hmem k (by simp) rfl
      rw [if_neg hk, setMember_fresh hfresh, foldl_rebuild (by simpa using h),
        List.filter_cons_of_pos (by simp [hk]), List.append_assoc]
      rfl

theorem cloneValue_obj {ms : List (Text × Value)} (h : (ms.map Prod.fst).Nodup) :
    cloneValue (.obj ms) = .obj (ms.filterMap copied) := by
  have hkeys : (cloneEntries ms).map Prod.fst = ms.map Prod.fst := by
    rw [cloneEntries_eq, List.map_map]
    rfl
  rw [cloneValue, foldl_rebuild (by simpa [hkeys] using h), List.nil_append, cloneEntries_eq]
  congr 1
  clear h hkeys
  induction ms with
  | nil => rfl
  | cons m ms ih =>
    by_cases hm : m.1 = js "__proto__" <;> simp [copied, hm, ← ih]

theorem enumerate_set {field : Text} (hfield : field ≠ js "__proto__") {x : Value} {result : List (Text × Value)}
    (hnodup : (result.map Prod.fst).Nodup) (henum : enumerate result = result) (hmem : field ∈ result.map Prod.fst) :
    enumerate (assign field x result) = result.filterMap fun m => some (if m.1 = field then (field, x) else m) := by
  have hset : setMember field x result = result.filterMap fun m => some (if m.1 = field then (field, x) else m) := by
    clear henum
    induction result with
    | nil => cases hmem
    | cons m result ih =>
      obtain ⟨k, v⟩ := m
      obtain ⟨hnot, hnodup⟩ := List.nodup_cons.mp hnodup
      rw [setMember, List.filterMap_cons]
      dsimp only
      by_cases hk : k = field
      · have hrest : (result.filterMap fun m => some (if m.1 = field then (field, x) else m)) = result := by
          refine (List.filterMap_congr fun m hm => ?_).trans List.filterMap_some
          rw [if_neg]
          intro heq
          have hmem := List.mem_map_of_mem (f := Prod.fst) hm
          rw [heq, ← hk] at hmem
          exact hnot hmem
        rw [if_pos hk, hrest, if_pos hk, hk]
      · have hmem' : field ∈ result.map Prod.fst := (List.mem_cons.mp hmem).resolve_left (Ne.symm hk)
        rw [if_neg hk, ih hnodup hmem', if_neg hk]
  rw [assign, if_neg hfield, hset]
  refine enumerate_filterMap (fun m n hn => ?_) henum
  cases hn
  split
  · next h => exact h.symm
  · rfl

/-- What the rules make of a member of the copy. -/
def ruled (ms tree : List (Text × Value)) (m : Text × Value) : Option (Text × Value) :=
  match getOwn m.1 tree with
  | none => some m
  | some (.bool _) => none
  | some rule => some (m.1, ((getOwn m.1 ms).filter Value.isObjectAndNotNull).elim m.2 (applyRuleTree false rule))

theorem keepsKeys_ruled (ms tree : List (Text × Value)) : KeepsKeys (ruled ms tree) := by
  intro m n hn
  unfold ruled at hn
  split at hn <;> cases hn <;> rfl

theorem filter_eq_filterMap {f : Text × Value → Option (Text × Value)} {P : Text × Value → Bool}
    {ms : List (Text × Value)} (h : ∀ m ∈ ms, f m = if P m then some m else none) : ms.filter P = ms.filterMap f := by
  induction ms with
  | nil => rfl
  | cons m ms ih =>
    rw [List.forall_mem_cons] at h
    rw [List.filter_cons, List.filterMap_cons, h.1, ih h.2]
    cases P m <;> rfl

theorem getOwn_cons {key field : Text} {rule : Value} {tree : List (Text × Value)} :
    getOwn key ((field, rule) :: tree) = if key = field then some rule else getOwn key tree := by
  rw [getOwn, List.lookup_cons]
  by_cases hkey : key = field
  · rw [if_pos hkey, hkey, beq_self_eq_true]
  · rw [if_neg hkey, beq_false_of_ne hkey, getOwn]

theorem getOwn_single {key field : Text} {rule : Value} :
    getOwn key [(field, rule)] = if key = field then some rule else none := getOwn_cons

theorem applyRule_eq {ms : List (Text × Value)} {field : Text} {rule : Value} {result : List (Text × Value)}
    (hfield : field ≠ js "__proto__") (hrule : IsRule rule) (hnodup : (result.map Prod.fst).Nodup)
    (henum : enumerate result = result) (hown : (getOwn field ms).isSome = true ↔ field ∈ result.map Prod.fst) :
    applyRule false field rule (applyRuleTree false rule) (getOwn field ms) result =
      result.filterMap (ruled ms [(field, rule)]) := by
  cases hget : getOwn field ms with
  | none =>
    rw [hget] at hown
    rw [applyRule]
    refine ((List.filterMap_congr fun m hm => ?_).trans List.filterMap_some).symm
    have hne : m.1 ≠ field := fun heq => by
      have hmem := List.mem_map_of_mem (f := Prod.fst) hm
      rw [heq] at hmem
      cases hown.mpr hmem
    rw [ruled, getOwn_single, if_neg hne]
  | some child =>
    have hmem : field ∈ result.map Prod.fst := hown.mp (by rw [hget]; rfl)
    cases rule with
    | bool b =>
      rw [applyRule, if_neg Bool.false_ne_true]
      refine filter_eq_filterMap fun m _ => ?_
      rw [ruled, getOwn_single]
      by_cases hm : m.1 = field <;> simp [hm]
    | obj tree =>
      unfold applyRule
      dsimp only
      split
      · next hobject =>
        rw [enumerate_set hfield hnodup henum hmem]
        refine List.filterMap_congr fun m _ => ?_
        rw [ruled, getOwn_single]
        by_cases hm : m.1 = field
        · simp [hm, hget, Option.filter, hobject]
        · simp [hm]
      · next hobject =>
        refine ((List.filterMap_congr fun m hm => ?_).trans List.filterMap_some).symm
        rw [ruled, getOwn_single]
        by_cases hm : m.1 = field
        · obtain ⟨k, v⟩ := m
          obtain rfl : k = field := hm
          simp [hget, Option.filter, hobject]
        · simp [hm]
    | _ => exact absurd hrule id

theorem mem_keys_ruled {ms tree result : List (Text × Value)} {k : Text} (hk : getOwn k tree = none) :
    k ∈ (result.filterMap (ruled ms tree)).map Prod.fst ↔ k ∈ result.map Prod.fst := by
  constructor
  · exact fun h => (keys_filterMap (keepsKeys_ruled ms tree) result).subset h
  · intro h
    obtain ⟨m, hm, rfl⟩ := List.mem_map.mp h
    refine List.mem_map.mpr ⟨m, List.mem_filterMap.mpr ⟨m, hm, ?_⟩, rfl⟩
    rw [ruled, hk]

theorem applyRules_eq {ms : List (Text × Value)} : ∀ {tree result : List (Text × Value)}, IsTree tree →
    (result.map Prod.fst).Nodup → enumerate result = result →
    (∀ k ∈ tree.map Prod.fst, (getOwn k ms).isSome = true ↔ k ∈ result.map Prod.fst) →
    applyRules false tree (.obj ms) result = result.filterMap (ruled ms tree)
  | [], result, _, _, _, _ => by
    rw [applyRules]
    exact List.filterMap_some.symm
  | (field, rule) :: rest, result, htree, hnodup, henum, hown => by
    obtain ⟨hfresh, hproto, hrule, hrest⟩ := htree
    have hkeeps := keepsKeys_ruled ms [(field, rule)]
    have hother : ∀ k ∈ rest.map Prod.fst, getOwn k [(field, rule)] = none := by
      intro k hk
      rw [getOwn_single, if_neg]
      rintro rfl
      exact hfresh hk
    rw [applyRules, ownMember, applyRule_eq hproto hrule hnodup henum (hown field (.head _)),
      applyRules_eq hrest ((keys_filterMap hkeeps result).nodup hnodup) (enumerate_filterMap hkeeps henum)
        fun k hk => by rw [mem_keys_ruled (hother k hk), hown k (.tail _ hk)],
      List.filterMap_filterMap]
    refine List.filterMap_congr fun m _ => ?_
    by_cases hm : m.1 = field
    · have hnone : getOwn field rest = none := getOwn_none hfresh
      unfold ruled
      rw [getOwn_single, getOwn_cons, if_pos hm, if_pos hm]
      cases rule with
      | bool b => rfl
      | obj tree => simp [hm, hnone]
      | _ => exact absurd hrule id
    · unfold ruled
      rw [getOwn_single, getOwn_cons, if_neg hm, if_neg hm]
      rfl

/-- What the rules of a node make of a member of an object. -/
def applied (tree : List (Text × Value)) (m : Text × Value) : Option (Text × Value) :=
  if m.1 = js "__proto__" then none
  else match getOwn m.1 tree with
    | none => some (m.1, cloneValue m.2)
    | some (.bool _) => none
    | some rule => some (m.1, if m.2.isObjectAndNotNull then applyRuleTree false rule m.2 else cloneValue m.2)

theorem keepsKeys_applied (tree : List (Text × Value)) : KeepsKeys (applied tree) := by
  intro m n hn
  unfold applied at hn
  split at hn
  · cases hn
  · split at hn <;> cases hn <;> rfl

theorem applyRuleTree_obj {tree ms : List (Text × Value)} (htree : IsTree tree) (hnodup : (ms.map Prod.fst).Nodup)
    (henum : enumerate ms = ms) : applyRuleTree false (.obj tree) (.obj ms) = .obj (ms.filterMap (applied tree)) := by
  have hown : ∀ k ∈ tree.map Prod.fst, (getOwn k ms).isSome = true ↔ k ∈ (ms.filterMap copied).map Prod.fst := by
    intro k hk
    obtain ⟨e, he, rfl⟩ := List.mem_map.mp hk
    have hproto := ((isTree_iff.mp htree).2 e he).1
    constructor
    · intro hsome
      obtain ⟨v, hv⟩ := Option.isSome_iff_exists.mp hsome
      refine List.mem_map.mpr ⟨(e.1, cloneValue v), List.mem_filterMap.mpr ⟨_, mem_of_getOwn hv, ?_⟩, rfl⟩
      rw [copied, if_neg hproto]
    · intro hmem
      obtain ⟨m, hm, heq⟩ := List.mem_map.mp ((keys_filterMap keepsKeys_copied ms).subset hmem)
      rw [← heq, getOwn_of_mem hnodup hm]
      rfl
  have hrules := applyRules_eq htree ((keys_filterMap keepsKeys_copied ms).nodup hnodup)
    (enumerate_filterMap keepsKeys_copied henum) hown
  have htree' : applyRuleTree false (.obj tree) (.obj ms) = .obj (applyRules false tree (.obj ms) (ms.filterMap copied)) := by
    rw [applyRuleTree, mapArrays]
    · dsimp only
      rw [if_neg Bool.false_ne_true, cloneValue_obj hnodup]
    · rintro _ ⟨⟩
  rw [htree', hrules, List.filterMap_filterMap]
  congr 1
  refine List.filterMap_congr fun m hm => ?_
  have hget : getOwn m.1 ms = some m.2 := getOwn_of_mem hnodup hm
  unfold copied applied
  by_cases hproto : m.1 = js "__proto__"
  · rw [if_pos hproto, if_pos hproto]
    rfl
  · rw [if_neg hproto, if_neg hproto, Option.bind_some]
    unfold ruled
    dsimp only
    rw [hget]
    split
    · rfl
    · rfl
    · cases hobject : m.2.isObjectAndNotNull <;> simp [Option.filter, hobject]

/-! ## Removing, member by member -/

/-- What is left of a member. -/
def removed (paths : List (List Text)) (m : Text × Value) : Option (Text × Value) :=
  if [] ∈ below m.1 paths then none else some (m.1, remove (below m.1 paths) m.2)

theorem keepsKeys_removed (paths : List (List Text)) : KeepsKeys (removed paths) := by
  intro m n hn
  unfold removed at hn
  split at hn
  · cases hn
  · cases hn
    rfl

theorem removeEntries_eq {paths : List (List Text)} {ms : List (Text × Value)} :
    removeEntries paths ms = ms.filterMap (removed paths) := by
  induction ms with
  | nil => rfl
  | cons m ms ih =>
    obtain ⟨k, v⟩ := m
    rw [removeEntries, List.filterMap_cons, removed]
    split <;> simp only [ih]

theorem filterMap_eq_iff {f g : Text × Value → Option (Text × Value)} (hf : KeepsKeys f) (hg : KeepsKeys g) :
    ∀ {ms : List (Text × Value)}, (ms.map Prod.fst).Nodup →
    (ms.filterMap f = ms.filterMap g ↔ ∀ m ∈ ms, f m = g m)
  | [], _ => by simp
  | m :: ms, h => by
    obtain ⟨hnot, hnodup⟩ := List.nodup_cons.mp h
    -- What one of the two keeps of the first member is not found in the rest of the other one.
    have hother : ∀ {f' : Text × Value → Option (Text × Value)} {n : Text × Value} {l : List (Text × Value)}, KeepsKeys f' →
        n.1 = m.1 → n :: l ≠ ms.filterMap f' := by
      intro f' n l hf' hn heq
      have hmem : n ∈ ms.filterMap f' := heq ▸ List.mem_cons_self
      have hkey := (keys_filterMap hf' ms).subset (List.mem_map_of_mem hmem)
      rw [hn] at hkey
      exact hnot hkey
    rw [List.forall_mem_cons, ← filterMap_eq_iff hf hg hnodup, List.filterMap_cons, List.filterMap_cons]
    cases hfm : f m with
    | none =>
      cases hgm : g m with
      | none => simp
      | some n =>
        simp only [reduceCtorEq, false_and, iff_false]
        exact fun heq => hother hf (hg m n hgm) heq.symm
    | some n =>
      cases hgm : g m with
      | none =>
        simp only [reduceCtorEq, false_and, iff_false]
        exact hother hg (hf m n hfm)
      | some n' => simp

theorem filterMap_eq_self {f : Text × Value → Option (Text × Value)} (hf : KeepsKeys f) {ms : List (Text × Value)}
    (h : (ms.map Prod.fst).Nodup) : ms.filterMap f = ms ↔ ∀ m ∈ ms, f m = some m := by
  have hsome : KeepsKeys some := by
    rintro m n ⟨⟩
    rfl
  rw [← filterMap_eq_iff hf hsome h, List.filterMap_some]

mutual

theorem remove_congr : ∀ (v : Value) {paths paths' : List (List Text)}, (∀ p, p ∈ paths ↔ p ∈ paths') →
    remove paths v = remove paths' v
  | .arr xs, _, _, h => by rw [remove, remove, removeElems_congr xs h]
  | .obj ms, _, _, h => by rw [remove, remove, removeEntries_congr ms h]
  | .undefined, _, _, _ | .null, _, _, _ | .bool _, _, _, _ | .num _, _, _, _ | .str _, _, _, _ | .date _, _, _, _
  | .regexp _, _, _, _ | .binary _, _, _, _ => rfl

theorem removeElems_congr : ∀ (xs : List Value) {paths paths' : List (List Text)}, (∀ p, p ∈ paths ↔ p ∈ paths') →
    removeElems paths xs = removeElems paths' xs
  | [], _, _, _ => rfl
  | x :: xs, _, _, h => by rw [removeElems, removeElems, remove_congr x h, removeElems_congr xs h]

theorem removeEntries_congr : ∀ (ms : List (Text × Value)) {paths paths' : List (List Text)},
    (∀ p, p ∈ paths ↔ p ∈ paths') → removeEntries paths ms = removeEntries paths' ms
  | [], _, _, _ => rfl
  | (k, v) :: ms, paths, paths', h => by
    have hbelow : ∀ p, p ∈ below k paths ↔ p ∈ below k paths' := fun p => by rw [mem_below, mem_below, h]
    have hnil : ([] ∈ below k paths) = ([] ∈ below k paths') := propext (hbelow [])
    rw [removeEntries, removeEntries, remove_congr v hbelow, removeEntries_congr ms h]
    simp only [hnil]

end

mutual

theorem meetsLeaf_congr : ∀ (v : Value) {paths paths' : List (List Text)}, (∀ p, p ∈ paths ↔ p ∈ paths') →
    meetsLeaf paths v = meetsLeaf paths' v
  | .arr xs, _, _, h => by rw [meetsLeaf, meetsLeaf, meetsLeafElems_congr xs h]
  | .obj ms, _, _, h => by rw [meetsLeaf, meetsLeaf, meetsLeafEntries_congr ms h]
  | .undefined, _, _, _ | .null, _, _, _ | .bool _, _, _, _ | .num _, _, _, _ | .str _, _, _, _ | .date _, _, _, _
  | .regexp _, _, _, _ | .binary _, _, _, _ => rfl

theorem meetsLeafElems_congr : ∀ (xs : List Value) {paths paths' : List (List Text)}, (∀ p, p ∈ paths ↔ p ∈ paths') →
    meetsLeafElems paths xs = meetsLeafElems paths' xs
  | [], _, _, _ => rfl
  | x :: xs, _, _, h => by rw [meetsLeafElems, meetsLeafElems, meetsLeaf_congr x h, meetsLeafElems_congr xs h]

theorem meetsLeafEntries_congr : ∀ (ms : List (Text × Value)) {paths paths' : List (List Text)},
    (∀ p, p ∈ paths ↔ p ∈ paths') → meetsLeafEntries paths ms = meetsLeafEntries paths' ms
  | [], _, _, _ => rfl
  | (k, v) :: ms, paths, paths', h => by
    have hbelow : ∀ p, p ∈ below k paths ↔ p ∈ below k paths' := fun p => by rw [mem_below, mem_below, h]
    have hempty : (below k paths).isEmpty = (below k paths').isEmpty := by
      rw [Bool.eq_iff_iff, List.isEmpty_iff, List.isEmpty_iff, List.eq_nil_iff_forall_not_mem,
        List.eq_nil_iff_forall_not_mem]
      simp only [hbelow]
    rw [meetsLeafEntries, meetsLeafEntries, meetsLeaf_congr v hbelow, meetsLeafEntries_congr ms h, hempty]
    simp only [hbelow []]

end

/-! ## Copies and removals -/

theorem hasProtoEntries_eq_false {ms : List (Text × Value)} :
    hasProtoEntries ms = false ↔ ∀ m ∈ ms, m.1 ≠ js "__proto__" ∧ hasProto m.2 = false := by
  induction ms with
  | nil => simp [hasProtoEntries]
  | cons m ms ih =>
    obtain ⟨k, v⟩ := m
    rw [hasProtoEntries, Bool.or_eq_false_iff, Bool.or_eq_false_iff, decide_eq_false_iff_not, ih, List.forall_mem_cons]

/-- No path goes through `__proto__`. -/
def NoProto (paths : List (List Text)) : Prop := ∀ path ∈ paths, js "__proto__" ∉ path

theorem NoProto.below {paths : List (List Text)} (h : NoProto paths) (key : Text) : NoProto (below key paths) :=
  fun path hpath hmem => h (key :: path) (mem_below.mp hpath) (.tail _ hmem)

theorem NoProto.nil_notMem {paths : List (List Text)} (h : NoProto paths) (rest : List Text) :
    rest ∉ Exclusion.below (js "__proto__") paths := fun hrest => h _ (mem_below.mp hrest) (.head _)

mutual

/-- A copy is what is left of a value if nothing was lost and nothing removed. -/
theorem clone_eq_remove_iff : ∀ {v : Value} {paths : List (List Text)}, Built v → NoProto paths →
    (cloneValue v = remove paths v ↔ hasProto v = false ∧ remove paths v = v)
  | .arr xs, paths, hv, hpaths => by
    rw [cloneValue, remove, hasProto, Value.arr.injEq, Value.arr.injEq]
    exact cloneElems_eq_remove_iff hv hpaths
  | .obj ms, paths, hv, hpaths => by
    rw [cloneValue_obj hv.1, remove, hasProto, Value.obj.injEq, Value.obj.injEq, removeEntries_eq,
      filterMap_eq_iff keepsKeys_copied (keepsKeys_removed paths) hv.1, filterMap_eq_self (keepsKeys_removed paths) hv.1,
      hasProtoEntries_eq_false, ← forall₂_and]
    exact forall₂_congr fun m hm => copied_eq_removed_iff hv.2.2 hpaths m hm
  | .undefined, _, _, _ | .null, _, _, _ | .bool _, _, _, _ | .num _, _, _, _ | .str _, _, _, _ | .date _, _, _, _
  | .regexp _, _, _, _ | .binary _, _, _, _ => ⟨fun _ => ⟨rfl, rfl⟩, fun _ => rfl⟩

theorem cloneElems_eq_remove_iff : ∀ {xs : List Value} {paths : List (List Text)}, BuiltElems xs → NoProto paths →
    (cloneValues xs = removeElems paths xs ↔ hasProtoElems xs = false ∧ removeElems paths xs = xs)
  | [], _, _, _ => ⟨fun _ => ⟨rfl, rfl⟩, fun _ => rfl⟩
  | x :: xs, paths, hxs, hpaths => by
    rw [cloneValues, removeElems, hasProtoElems, List.cons.injEq, List.cons.injEq, Bool.or_eq_false_iff,
      clone_eq_remove_iff hxs.1 hpaths, cloneElems_eq_remove_iff hxs.2 hpaths, and_and_and_comm]

theorem copied_eq_removed_iff : ∀ {ms : List (Text × Value)} {paths : List (List Text)}, BuiltEntries ms → NoProto paths →
    ∀ m ∈ ms, (copied m = removed paths m ↔
      (m.1 ≠ js "__proto__" ∧ hasProto m.2 = false) ∧ removed paths m = some m)
  | (k, v) :: ms, paths, hms, hpaths, m, hm => by
    rcases List.mem_cons.mp hm with rfl | hm
    · unfold copied removed
      dsimp only
      by_cases hk : k = js "__proto__"
      · have hnot : [] ∉ below k paths := hk ▸ hpaths.nil_notMem []
        simp [hk, hpaths.nil_notMem]
      · by_cases hnil : [] ∈ below k paths
        · simp [hk, hnil]
        · have ih := clone_eq_remove_iff hms.1 (hpaths.below k)
          simp [hk, hnil, ih]
    · exact copied_eq_removed_iff hms.2 hpaths m hm

end

mutual

theorem remove_nil : ∀ v : Value, remove [] v = v
  | .arr xs => by rw [remove, removeElems_nil xs]
  | .obj ms => by rw [remove, removeEntries_nil ms]
  | .undefined | .null | .bool _ | .num _ | .str _ | .date _ | .regexp _ | .binary _ => rfl

theorem removeElems_nil : ∀ xs : List Value, removeElems [] xs = xs
  | [] => rfl
  | x :: xs => by rw [removeElems, remove_nil x, removeElems_nil xs]

theorem removeEntries_nil : ∀ ms : List (Text × Value), removeEntries [] ms = ms
  | [] => rfl
  | (k, v) :: ms => by
    have hbelow : below k [] = [] := rfl
    rw [removeEntries, hbelow, if_neg List.not_mem_nil, remove_nil v, removeEntries_nil ms]

end

theorem clone_eq_self_iff {v : Value} (h : Built v) : cloneValue v = v ↔ hasProto v = false := by
  have hiff := @clone_eq_remove_iff v [] h fun path hpath => absurd hpath List.not_mem_nil
  rw [remove_nil] at hiff
  rw [hiff, and_iff_left rfl]

/-! ## Rules and removals -/

/-- A path goes on in the value of a member that has no fields. -/
def memberMeets (paths : List (List Text)) (m : Text × Value) : Bool :=
  !(below m.1 paths).isEmpty && [] ∉ below m.1 paths && m.2.isObjectAndNotNull && meetsLeaf (below m.1 paths) m.2

theorem meetsLeafEntries_eq_false {paths : List (List Text)} {ms : List (Text × Value)} :
    meetsLeafEntries paths ms = false ↔ ∀ m ∈ ms, memberMeets paths m = false := by
  induction ms with
  | nil => simp [meetsLeafEntries]
  | cons m ms ih =>
    obtain ⟨k, v⟩ := m
    rw [meetsLeafEntries, Bool.or_eq_false_iff, ih, List.forall_mem_cons, memberMeets]

theorem hasProto_removeEntries {paths : List (List Text)} {ms : List (Text × Value)} :
    hasProtoEntries (removeEntries paths ms) = false ↔
      ∀ m ∈ ms, ∀ n ∈ removed paths m, n.1 ≠ js "__proto__" ∧ hasProto n.2 = false := by
  rw [removeEntries_eq, hasProtoEntries_eq_false]
  constructor
  · exact fun h m hm n hn => h n (List.mem_filterMap.mpr ⟨m, hm, hn⟩)
  · intro h n hn
    obtain ⟨m, hm, hn⟩ := List.mem_filterMap.mp hn
    exact h m hm n hn

theorem applyRuleTree_arr (tree : List (Text × Value)) (xs : List Value) :
    applyRuleTree false (.obj tree) (.arr xs) = .arr (xs.map (applyRuleTree false (.obj tree))) := by
  have helems (f : Value → Value) : ∀ xs : List Value, mapElems f xs = xs.map (mapArrays f) := by
    intro xs
    induction xs with
    | nil => rfl
    | cons x xs ih => rw [mapElems, ih, List.map_cons]
  rw [applyRuleTree, mapArrays, helems]
  congr 1

/-- Without a rule, a member is copied. -/
theorem applied_free_iff {tree : List (Text × Value)} (htree : IsTree tree) {k : Text} (hget : getOwn k tree = none)
    {v : Value} (hv : Built v) : applied tree (k, v) = removed (treePaths tree) (k, v) ↔
      memberMeets (treePaths tree) (k, v) = false ∧
      ∀ n ∈ removed (treePaths tree) (k, v), n.1 ≠ js "__proto__" ∧ hasProto n.2 = false := by
  have hempty : below k (treePaths tree) = [] := by
    rw [List.eq_nil_iff_forall_not_mem]
    intro rest hrest
    obtain ⟨rule, hrule, -⟩ := (mem_below_treePaths htree).mp hrest
    rw [hget] at hrule
    cases hrule
  have hclone := clone_eq_self_iff hv
  have hkept : removed (treePaths tree) (k, v) = some (k, v) := by
    rw [removed]
    dsimp only
    rw [hempty, if_neg List.not_mem_nil, remove_nil]
  have hmeets : memberMeets (treePaths tree) (k, v) = false := by
    rw [memberMeets, hempty]
    rfl
  rw [hkept, hmeets, applied]
  by_cases hk : k = js "__proto__"
  · rw [if_pos hk]
    exact ⟨fun h => (by cases h), fun h => absurd hk (h.2 (k, v) rfl).1⟩
  · rw [if_neg hk]
    dsimp only
    rw [hget]
    simp [hclone, hk]

mutual

/-- The rules of a node remove its paths from a value in which none of them meets a leaf. -/
theorem applyRuleTree_eq_iff : ∀ {v : Value} {tree : List (Text × Value)}, Built v → IsTree tree →
    (applyRuleTree false (.obj tree) v = remove (treePaths tree) v ↔
      meetsLeaf (treePaths tree) v = false ∧ hasProto (remove (treePaths tree) v) = false)
  | .arr xs, tree, hv, htree => by
    rw [applyRuleTree_arr, remove, meetsLeaf, hasProto, Value.arr.injEq]
    exact applyElems_eq_iff hv htree
  | .obj ms, tree, hv, htree => by
    rw [applyRuleTree_obj htree hv.1 hv.2.1, remove, meetsLeaf, hasProto, Value.obj.injEq, hasProto_removeEntries,
      removeEntries_eq, filterMap_eq_iff (keepsKeys_applied tree) (keepsKeys_removed _) hv.1, meetsLeafEntries_eq_false,
      ← forall₂_and]
    exact forall₂_congr fun m hm => applied_eq_removed_iff hv.2.2 htree m hm
  | .undefined, _, _, _ | .null, _, _, _ => ⟨fun _ => ⟨rfl, rfl⟩, fun _ => rfl⟩
  | .bool _, _, _, _ | .num _, _, _, _ | .str _, _, _, _ | .date _, _, _, _
  | .regexp _, _, _, _ | .binary _, _, _, _ => ⟨fun h => (by cases h), fun h => (by cases h.1)⟩

theorem applyElems_eq_iff : ∀ {xs : List Value} {tree : List (Text × Value)}, BuiltElems xs → IsTree tree →
    (xs.map (applyRuleTree false (.obj tree)) = removeElems (treePaths tree) xs ↔
      meetsLeafElems (treePaths tree) xs = false ∧ hasProtoElems (removeElems (treePaths tree) xs) = false)
  | [], _, _, _ => ⟨fun _ => ⟨rfl, rfl⟩, fun _ => rfl⟩
  | x :: xs, tree, hxs, htree => by
    rw [List.map_cons, removeElems, meetsLeafElems, hasProtoElems, List.cons.injEq, Bool.or_eq_false_iff,
      Bool.or_eq_false_iff, applyRuleTree_eq_iff hxs.1 htree, applyElems_eq_iff hxs.2 htree, and_and_and_comm]

theorem applied_eq_removed_iff : ∀ {ms tree : List (Text × Value)}, BuiltEntries ms → IsTree tree →
    ∀ m ∈ ms, (applied tree m = removed (treePaths tree) m ↔ memberMeets (treePaths tree) m = false ∧
      ∀ n ∈ removed (treePaths tree) m, n.1 ≠ js "__proto__" ∧ hasProto n.2 = false)
  | (k, v) :: ms, tree, hms, htree, m, hm => by
    rcases List.mem_cons.mp hm with rfl | hm
    · have hbelow : ∀ rest, rest ∈ below k (treePaths tree) ↔ ∃ rule, getOwn k tree = some rule ∧ rest ∈ rulePaths rule :=
        fun rest => mem_below_treePaths htree
      cases hget : getOwn k tree with
      | none =>
        exact applied_free_iff htree hget hms.1
      | some rule =>
        have hrule := (isTree_iff.mp htree).2 _ (mem_of_getOwn hget)
        have hpaths : ∀ rest, rest ∈ below k (treePaths tree) ↔ rest ∈ rulePaths rule := by
          intro rest
          rw [hbelow, hget]
          simp
        have hk : k ≠ js "__proto__" := hrule.1
        cases rule with
        | bool b =>
          have hnil : [] ∈ below k (treePaths tree) := (hpaths []).mpr (.head _)
          unfold applied removed memberMeets
          simp [hget, hk, hnil]
        | obj sub =>
          have hnil : [] ∉ below k (treePaths tree) := fun hmem => nil_notMem_treePaths sub ((hpaths []).mp hmem)
          have hfilled : (below k (treePaths tree)).isEmpty = false := by
            obtain ⟨rest, hrest⟩ := List.exists_mem_of_ne_nil _ (rulePaths_ne_nil hrule.2)
            rw [List.isEmpty_eq_false_iff]
            exact List.ne_nil_of_mem ((hpaths rest).mpr hrest)
          have ih := applyRuleTree_eq_iff hms.1 hrule.2.2
          rw [rulePaths] at hpaths
          rw [← remove_congr v hpaths, ← meetsLeaf_congr v hpaths] at ih
          unfold applied removed memberMeets
          cases hobject : v.isObjectAndNotNull with
          | true => simp [hget, hk, hnil, hfilled, ih]
          | false =>
            have hscalar : cloneValue v = v ∧ remove (below k (treePaths tree)) v = v ∧ hasProto v = false := by
              cases v <;> first | exact ⟨rfl, rfl, rfl⟩ | cases hobject
            simp [hget, hk, hnil, hscalar]
        | _ => exact absurd hrule.2 id
    · exact applied_eq_removed_iff hms.2 htree m hm

end

/-! ## Exclusion projections -/

/-- The names that every object inherits. -/
def inheritedNames : List Text :=
  [js "__proto__", js "constructor", js "hasOwnProperty", js "isPrototypeOf", js "propertyIsEnumerable",
    js "toLocaleString", js "toString", js "valueOf", js "__defineGetter__", js "__defineSetter__",
    js "__lookupGetter__", js "__lookupSetter__"]

/-- An exclusion projection that is accepted. The rules are looked up in plain objects, so no part of its paths is a
name that they inherit. -/
structure Excludes (projection : List (Text × Value)) (project : Value → Value) : Prop where
  compiles : compileProjection projection = .ok project
  excludes : ∀ m ∈ projection, truthy m.2 = false
  own : ∀ m ∈ projection, ∀ part ∈ splitPath m.1, part ∉ inheritedNames

/-- The paths that a projection excludes. -/
def excludedPaths (projection : List (Text × Value)) : List (List Text) := projection.map fun m => splitPath m.1

theorem splitPath_eq_id {path : Text} : splitPath path = [js "_id"] ↔ path = js "_id" := by
  constructor
  · intro h
    have hpath : [46].intercalate (splitPath path) = path := List.intercalate_splitOn 46
    rw [← hpath, h]
    rfl
  · rintro rfl
    rfl

theorem projectionPaths_subset (projection : List (Text × Value)) :
    projectionPaths projection ⊆ projection.map Prod.fst := by
  intro path hpath
  unfold projectionPaths at hpath
  dsimp only at hpath
  split at hpath
  · exact (List.mem_insertionSort _).mp hpath
  · exact (List.mem_insertionSort _).mp (List.mem_filter.mp hpath).1

theorem mem_projectionPaths {projection : List (Text × Value)} {path : Text} (hpath : path ≠ js "_id") :
    path ∈ projectionPaths projection ↔ path ∈ projection.map Prod.fst := by
  refine ⟨fun h => projectionPaths_subset projection h, fun h => ?_⟩
  unfold projectionPaths
  dsimp only
  split
  · exact (List.mem_insertionSort _).mpr h
  · exact List.mem_filter.mpr ⟨(List.mem_insertionSort _).mpr h, decide_eq_true hpath⟩

theorem isProjectionValue_of_check : ∀ {projection : List (Text × Value)}, checkProjection projection = .ok () →
    ∀ m ∈ projection, isProjectionValue m.2 = true
  | [], _, m, hm => absurd hm List.not_mem_nil
  | (path, value) :: rest, h, m, hm => by
    rw [checkProjection] at h
    split at h
    · cases h
    · split at h
      · cases h
      · split at h
        · cases h
        · next hvalue =>
          rcases List.mem_cons.mp hm with rfl | hm
          · simpa using hvalue
          · exact isProjectionValue_of_check h m hm

section
variable {projection : List (Text × Value)} {project : Value → Value} (h : Excludes projection project)
include h

theorem Excludes.falsy (path : Text) : truthy ((getOwn path projection).getD .undefined) = false := by
  cases hget : getOwn path projection with
  | none => rfl
  | some v => exact h.excludes _ (mem_of_getOwn hget)

/-- What the projection was compiled to. -/
theorem Excludes.compiled : ∃ tree, IsTree tree ∧ (∀ p, p ∈ treePaths tree ↔ p ∈ (projectionPaths projection).map splitPath) ∧
    (idProjection projection = true ↔ js "_id" ∉ projection.map Prod.fst) ∧
    project = fun document => match idProjection projection, ownMember document (js "_id") with
      | true, some id => withMember (js "_id") (cloneValue id) (applyRuleTree false (.obj tree) document)
      | true, none => applyRuleTree false (.obj tree) document
      | false, _ => deleteKey (js "_id") (applyRuleTree false (.obj tree) document) := by
  obtain ⟨⟨⟩, hcheck, hproject⟩ := bind_eq_ok h.compiles
  obtain ⟨⟨including, tree⟩, hdetails, hproject⟩ := bind_eq_ok hproject
  obtain ⟨tree', htree, hdetails⟩ := bind_eq_ok hdetails
  cases hdetails
  cases hproject
  have hincluding : ((projectionPaths projection).head?.any fun path =>
      truthy ((getOwn path projection).getD .undefined)) = false := by
    cases (projectionPaths projection).head? with
    | none => rfl
    | some path => exact h.falsy path
  rw [hincluding] at htree ⊢
  have hproto : ∀ path ∈ projectionPaths projection, js "__proto__" ∉ splitPath path := by
    intro path hpath hmem
    obtain ⟨m, hm, rfl⟩ := List.mem_map.mp (projectionPaths_subset projection hpath)
    exact h.own m hm _ hmem (.head _)
  obtain ⟨hisTree, hpaths⟩ := insertRules_ok hproto htree trivial
  refine ⟨tree, hisTree, fun p => ?_, ?_, rfl⟩
  · rw [hpaths]
    simp [treePaths]
  · unfold idProjection
    cases hget : getOwn (js "_id") projection with
    | none =>
      have hnot : js "_id" ∉ projection.map Prod.fst := fun hmem => by
        have hsome := (hasOwn_iff projection (js "_id")).mpr hmem
        rw [hasOwn, hget] at hsome
        cases hsome
      exact ⟨fun _ => hnot, fun _ => rfl⟩
    | some v =>
      have hmem : (js "_id", v) ∈ projection := mem_of_getOwn hget
      have hvalue := isProjectionValue_of_check hcheck _ hmem
      have hfalsy := h.excludes _ hmem
      have hkey : js "_id" ∈ projection.map Prod.fst := List.mem_map_of_mem hmem
      cases v with
      | undefined => cases hvalue
      | _ => exact ⟨fun htrue => absurd (hfalsy.symm.trans htrue) Bool.false_ne_true, fun hnot => absurd hkey hnot⟩

end

theorem id_mem_excludedPaths {projection : List (Text × Value)} :
    [js "_id"] ∈ excludedPaths projection ↔ js "_id" ∈ projection.map Prod.fst := by
  rw [excludedPaths, List.mem_map, List.mem_map]
  exact exists_congr fun m => and_congr_right fun _ => splitPath_eq_id

/-- What a projection with these paths and rules makes of a member of a document: the `_id` is copied or dropped. -/
def projected (paths : List (List Text)) (tree : List (Text × Value)) (m : Text × Value) : Option (Text × Value) :=
  if m.1 = js "_id" then if [] ∈ below m.1 paths then none else copied m
  else applied tree m

theorem keepsKeys_projected (paths : List (List Text)) (tree : List (Text × Value)) : KeepsKeys (projected paths tree) := by
  intro m n hn
  unfold projected at hn
  split at hn
  · split at hn
    · cases hn
    · exact keepsKeys_copied m n hn
  · exact keepsKeys_applied tree m n hn

theorem applied_isSome {tree : List (Text × Value)} {m : Text × Value} (hm : m.1 ≠ js "__proto__")
    (hleaf : [m.1] ∉ treePaths tree) : ∃ n, applied tree m = some n := by
  unfold applied
  rw [if_neg hm]
  split
  · exact ⟨_, rfl⟩
  · next b hb => exact absurd (mem_treePaths.mpr ⟨_, mem_of_getOwn hb, [], List.mem_cons_self, rfl⟩) hleaf
  · exact ⟨_, rfl⟩

section
variable {paths : List (List Text)} {tree ms : List (Text × Value)}

theorem filterMap_projected_of_absent (hnodup : (ms.map Prod.fst).Nodup) (hget : getOwn (js "_id") ms = none) :
    ms.filterMap (projected paths tree) = ms.filterMap (applied tree) := by
  refine List.filterMap_congr fun m hm => ?_
  have hne : m.1 ≠ js "_id" := fun heq => by
    have hown := getOwn_of_mem hnodup hm
    rw [heq, hget] at hown
    cases hown
  rw [projected, if_neg hne]

/-- The `_id` is copied over what the rules left of it. -/
theorem withMember_projected (hnodup : (ms.map Prod.fst).Nodup) (henum : enumerate ms = ms) {id : Value}
    (hget : getOwn (js "_id") ms = some id) (hkept : [] ∉ below (js "_id") paths) (hleaf : [js "_id"] ∉ treePaths tree) :
    withMember (js "_id") (cloneValue id) (.obj (ms.filterMap (applied tree))) =
      .obj (ms.filterMap (projected paths tree)) := by
  have hkeys := keepsKeys_applied tree
  have hproto : js "_id" ≠ js "__proto__" := by decide
  obtain ⟨n, hn⟩ := @applied_isSome tree (js "_id", id) hproto hleaf
  have hkey : js "_id" ∈ (ms.filterMap (applied tree)).map Prod.fst :=
    List.mem_map.mpr ⟨n, List.mem_filterMap.mpr ⟨_, mem_of_getOwn hget, hn⟩, hkeys _ n hn⟩
  rw [withMember, enumerate_set hproto ((keys_filterMap hkeys ms).nodup hnodup) (enumerate_filterMap hkeys henum) hkey,
    List.filterMap_filterMap]
  congr 1
  refine List.filterMap_congr fun m hm => ?_
  by_cases heq : m.1 = js "_id"
  · obtain ⟨k, v⟩ := m
    obtain rfl : k = js "_id" := heq
    obtain rfl : v = id := eq_of_mem_nodup hnodup hm (mem_of_getOwn hget)
    rw [hn, Option.bind_some, if_pos (hkeys _ n hn), projected, if_pos rfl, if_neg hkept, copied, if_neg hproto]
  · rw [projected, if_neg heq]
    cases hm : applied tree m with
    | none => rfl
    | some n => rw [Option.bind_some, if_neg fun hn => heq ((hkeys m n hm).symm.trans hn)]

/-- The `_id` is taken from what the rules left. -/
theorem deleteKey_projected (hdropped : [] ∈ below (js "_id") paths) :
    deleteKey (js "_id") (.obj (ms.filterMap (applied tree))) = .obj (ms.filterMap (projected paths tree)) := by
  have hkeys := keepsKeys_applied tree
  rw [deleteKey, filter_eq_filterMap (f := fun n => if n.1 ≠ js "_id" then some n else none) (by simp),
    List.filterMap_filterMap]
  congr 1
  refine List.filterMap_congr fun m _ => ?_
  rw [projected]
  by_cases heq : m.1 = js "_id"
  · rw [if_pos heq, heq, if_pos hdropped]
    cases hm : applied tree m with
    | none => rfl
    | some n => rw [Option.bind_some, if_neg fun hn => hn ((hkeys m n hm).trans heq)]
  · rw [if_neg heq]
    cases hm : applied tree m with
    | none => rfl
    | some n => rw [Option.bind_some, if_pos fun hn => heq ((hkeys m n hm).symm.trans hn)]

end

/-- The paths that become rules are the excluded ones, but for the `_id`. -/
theorem mem_ruledPaths {projection : List (Text × Value)} {p : List Text} (hp : p.head? ≠ some (js "_id")) :
    p ∈ (projectionPaths projection).map splitPath ↔ p ∈ excludedPaths projection := by
  rw [excludedPaths, List.mem_map, List.mem_map]
  constructor
  · rintro ⟨path, hpath, rfl⟩
    obtain ⟨m, hm, rfl⟩ := List.mem_map.mp (projectionPaths_subset projection hpath)
    exact ⟨m, hm, rfl⟩
  · rintro ⟨m, hm, rfl⟩
    have hne : m.1 ≠ js "_id" := fun heq => hp (by rw [splitPath_eq_id.mpr heq]; rfl)
    exact ⟨m.1, (mem_projectionPaths hne).mpr (List.mem_map_of_mem hm), rfl⟩

theorem id_mem_projection {projection : List (Text × Value)}
    (h : [js "_id"] ∈ (projectionPaths projection).map splitPath) : js "_id" ∈ projection.map Prod.fst := by
  obtain ⟨path, hpath, hsplit⟩ := List.mem_map.mp h
  obtain rfl := splitPath_eq_id.mp hsplit
  exact projectionPaths_subset projection hpath

theorem Excludes.project_obj {projection : List (Text × Value)} {project : Value → Value} (h : Excludes projection project)
    {ms : List (Text × Value)} (hnodup : (ms.map Prod.fst).Nodup) (henum : enumerate ms = ms) :
    ∃ tree, IsTree tree ∧ (∀ p, p.head? ≠ some (js "_id") → (p ∈ treePaths tree ↔ p ∈ excludedPaths projection)) ∧
      project (.obj ms) = .obj (ms.filterMap (projected (excludedPaths projection) tree)) := by
  obtain ⟨tree, htree, hpaths, hid, hproject⟩ := h.compiled
  refine ⟨tree, htree, fun p hp => (hpaths p).trans (mem_ruledPaths hp), ?_⟩
  have hnil : [] ∈ below (js "_id") (excludedPaths projection) ↔ js "_id" ∈ projection.map Prod.fst :=
    mem_below.trans id_mem_excludedPaths
  have hown : ownMember (.obj ms) (js "_id") = getOwn (js "_id") ms := rfl
  rw [hproject]
  dsimp only
  rw [hown, applyRuleTree_obj htree hnodup henum]
  cases hkeeps : idProjection projection with
  | true =>
    have hnot : js "_id" ∉ projection.map Prod.fst := hid.mp hkeeps
    cases hget : getOwn (js "_id") ms with
    | none => exact congrArg Value.obj (filterMap_projected_of_absent hnodup hget).symm
    | some id =>
      refine withMember_projected hnodup henum hget (fun hmem => hnot (hnil.mp hmem)) fun hmem => hnot ?_
      exact id_mem_projection ((hpaths _).mp hmem)
  | false =>
    refine deleteKey_projected (hnil.mpr ?_)
    by_contra hnot
    rw [hid.mpr hnot] at hkeeps
    cases hkeeps

/-! ## When exactly the paths are removed -/

/-- The excluded paths that do not start at the `_id`. -/
def fieldPaths (projection : List (Text × Value)) : List (List Text) :=
  (excludedPaths projection).filter fun path => path.head? ≠ some (js "_id")

theorem mem_below_fieldPaths {projection : List (Text × Value)} {key : Text} {rest : List Text} :
    rest ∈ below key (fieldPaths projection) ↔ key ≠ js "_id" ∧ rest ∈ below key (excludedPaths projection) := by
  rw [mem_below, mem_below, fieldPaths, List.mem_filter, decide_eq_true_iff, List.head?_cons, and_comm, ne_eq, Option.some.injEq]

theorem memberMeets_congr {paths paths' : List (List Text)} {m : Text × Value}
    (h : ∀ rest, rest ∈ below m.1 paths ↔ rest ∈ below m.1 paths') : memberMeets paths m = memberMeets paths' m := by
  have hempty : (below m.1 paths).isEmpty = (below m.1 paths').isEmpty := by
    rw [Bool.eq_iff_iff, List.isEmpty_iff, List.isEmpty_iff, List.eq_nil_iff_forall_not_mem, List.eq_nil_iff_forall_not_mem]
    simp only [h]
  rw [memberMeets, memberMeets, meetsLeaf_congr m.2 h, hempty]
  simp only [h []]

theorem removed_congr {paths paths' : List (List Text)} {m : Text × Value}
    (h : ∀ rest, rest ∈ below m.1 paths ↔ rest ∈ below m.1 paths') : removed paths m = removed paths' m := by
  rw [removed, removed, remove_congr m.2 h]
  simp only [h []]

section
variable {projection : List (Text × Value)} {project : Value → Value} (h : Excludes projection project)
include h

theorem Excludes.noProto : NoProto (excludedPaths projection) := by
  intro path hpath hmem
  obtain ⟨m, hm, rfl⟩ := List.mem_map.mp hpath
  exact h.own m hm _ hmem (.head _)

/-- **An exclusion projection removes exactly its fields** if none of its paths goes on in a value without fields or
below a kept `_id`, and no `__proto__` is left. -/
theorem project_eq_remove_iff {ms : List (Text × Value)} (hdocument : Built (.obj ms)) :
    project (.obj ms) = remove (excludedPaths projection) (.obj ms) ↔
      meetsLeaf (fieldPaths projection) (.obj ms) = false ∧
      (∀ id, getOwn (js "_id") ms = some id → [js "_id"] ∈ excludedPaths projection ∨
        remove (below (js "_id") (excludedPaths projection)) id = id) ∧
      hasProto (remove (excludedPaths projection) (.obj ms)) = false := by
  obtain ⟨hnodup, henum, hentries⟩ := hdocument
  obtain ⟨tree, htree, hpaths, hproject⟩ := h.project_obj hnodup henum
  have hother {k : Text} (hk : k ≠ js "_id") (rest : List Text) :
      rest ∈ below k (treePaths tree) ↔ rest ∈ below k (excludedPaths projection) := by
    rw [mem_below, mem_below]
    exact hpaths _ fun heq => hk (Option.some.inj heq)
  have hids : (∀ id, getOwn (js "_id") ms = some id → [js "_id"] ∈ excludedPaths projection ∨
      remove (below (js "_id") (excludedPaths projection)) id = id) ↔
      ∀ m ∈ ms, m.1 = js "_id" → [] ∈ below m.1 (excludedPaths projection) ∨ removed (excludedPaths projection) m = some m := by
    have hstep {id : Value} : ([js "_id"] ∈ excludedPaths projection ∨
        remove (below (js "_id") (excludedPaths projection)) id = id) ↔
        [] ∈ below (js "_id") (excludedPaths projection) ∨ removed (excludedPaths projection) (js "_id", id) = some (js "_id", id) := by
      rw [mem_below]
      refine or_congr_right' fun hnot => ?_
      unfold removed
      dsimp only
      rw [if_neg fun hmem => hnot (mem_below.mp hmem), Option.some.injEq, Prod.mk.injEq, eq_self, true_and]
    constructor
    · rintro hid ⟨k, id⟩ hm rfl
      exact hstep.mp (hid id (getOwn_of_mem hnodup hm))
    · exact fun hm id hget => hstep.mpr (hm _ (mem_of_getOwn hget) rfl)
  rw [hproject, remove, meetsLeaf, hasProto, Value.obj.injEq, hasProto_removeEntries, removeEntries_eq,
    filterMap_eq_iff (keepsKeys_projected _ tree) (keepsKeys_removed _) hnodup, meetsLeafEntries_eq_false, hids,
    ← forall₂_and, ← forall₂_and]
  refine forall₂_congr fun m hm => ?_
  rw [projected]
  by_cases heq : m.1 = js "_id"
  · have hmeets : memberMeets (fieldPaths projection) m = false := by
      have hempty : below m.1 (fieldPaths projection) = [] :=
        List.eq_nil_iff_forall_not_mem.mpr fun rest hrest => (mem_below_fieldPaths.mp hrest).1 heq
      rw [memberMeets, hempty]
      rfl
    rw [if_pos heq, hmeets]
    by_cases hnil : [] ∈ below m.1 (excludedPaths projection)
    · simp [hnil, removed]
    · rw [if_neg hnil, copied_eq_removed_iff hentries h.noProto m hm]
      constructor
      · rintro ⟨hproto, hkept⟩
        refine ⟨rfl, fun _ => .inr hkept, fun n hn => ?_⟩
        rw [hkept] at hn
        obtain rfl := Option.some.inj hn
        exact hproto
      · rintro ⟨-, hkept, hproto⟩
        have hkept := (hkept heq).resolve_left hnil
        exact ⟨hproto m hkept, hkept⟩
  · have hfields : ∀ rest, rest ∈ below m.1 (treePaths tree) ↔ rest ∈ below m.1 (fieldPaths projection) := fun rest => by
      rw [hother heq rest, mem_below_fieldPaths, and_iff_right heq]
    rw [if_neg heq, ← removed_congr (hother heq), applied_eq_removed_iff hentries htree m hm, memberMeets_congr hfields]
    simp only [heq, false_imp_iff, true_and]

end

/-- `{ 'a.b': false }` -/
def withoutField : List (Text × Value) := [(js "a.b", .bool false)]

/-- `{ a: [{ b: true, c: null }, null] }` -/
def nested : List (Text × Value) := [(js "a", .arr [.obj [(js "b", .bool true), (js "c", .null)], .null])]

theorem project_eq_remove_iff_nested : ∃ project, compileProjection withoutField = .ok project ∧
    project (.obj nested) = remove (excludedPaths withoutField) (.obj nested) := by
  have hexcludes : ∃ project, Excludes withoutField project :=
    ⟨_, rfl, by simp [withoutField, truthy, isFalsy], by decide⟩
  obtain ⟨project, hproject⟩ := hexcludes
  refine ⟨project, hproject.compiles, (project_eq_remove_iff hproject ?_).mpr ⟨by decide, ?_, by decide⟩⟩
  · exact ⟨by decide, rfl, ⟨⟨by decide, rfl, trivial, trivial, trivial⟩, trivial, trivial⟩, trivial⟩
  · rintro id ⟨⟩

/-- `{ a: [true] }` -/
def listed : List (Text × Value) := [(js "a", .arr [.bool true])]

/-- `{ a: [true] }` becomes `{ a: [{}] }`. -/
theorem element_replaced : ∃ project, compileProjection withoutField = .ok project ∧
    project (.obj listed) = .obj [(js "a", .arr [.obj []])] ∧
    remove (excludedPaths withoutField) (.obj listed) = .obj listed ∧
    project (.obj listed) ≠ remove (excludedPaths withoutField) (.obj listed) :=
  ⟨_, rfl, rfl, rfl, fun h => by cases h⟩

end TypeFerry.Minimongo.Exclusion
