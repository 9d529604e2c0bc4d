import TypeFerry.Ejson.Equals
import TypeFerry.Ejson.Transparent

/-! # Values that share objects

A value in which an object can be reached along several paths is a tree whose objects carry numbers: one number is
one object. `clone` goes over it with the set of the objects it has seen, and leaves out what it comes to again. -/
namespace TypeFerry.Ejson.Sharing
open TypeFerry.Lib.Numeral TypeFerry.Lib.JsonText TypeFerry.Ejson.Clone TypeFerry.Ejson.Convert TypeFerry.Ejson.Encode
open TypeFerry.Ejson.Transparent (cloneMembers_eq cloneElems_eq cloneMember_eq ClonesTo clonesTo depthElems_le depthMembers_le)

inductive Graph where
  | null
  | bool (b : Bool)
  | num (n : Number)
  | str (s : Text)
  | date (object : ℕ) (time : Option ℤ)
  | regexp (object : ℕ) (r : RegExp)
  | binary (object : ℕ) (bytes : List UInt8)
  | arr (object : ℕ) (xs : List Graph)
  | obj (object : ℕ) (ms : List (Text × Graph))

namespace Graph

/-- The object that a value is, unless it is none. -/
def object? : Graph → Option ℕ
  | null | bool _ | num _ | str _ => none
  | date object _ | regexp object _ | binary object _ | arr object _ | obj object _ => some object

/-- `set.has(val)` -/
def isSeen (seen : List ℕ) (g : Graph) : Bool := g.object?.any (· ∈ seen)

/-- `set.add(val)` -/
def mark (seen : List ℕ) (g : Graph) : List ℕ := g.object?.toList ++ seen

end Graph

mutual

/-- The unshared deep copy. -/
def unshare : Graph → Value
  | .null => .null
  | .bool b => .bool b
  | .num n => .num n
  | .str s => .str s
  | .date _ time => .date time
  | .regexp _ r => .regexp r
  | .binary _ bytes => .binary bytes
  | .arr _ xs => .arr (unshareElems xs)
  | .obj _ ms => .obj (unshareMembers ms)

def unshareElems : List Graph → List Value
  | [] => []
  | x :: xs => unshare x :: unshareElems xs

def unshareMembers : List (Text × Graph) → List (Text × Value)
  | [] => []
  | (k, g) :: ms => (k, unshare g) :: unshareMembers ms

end

/-- The key of an element below `length`. -/
def isIndex (length : ℕ) (k : Text) : Bool := (List.range length).any fun i => indexText i = k

section
variable (rt : Runtime)

mutual

/-- `internalClone`, with the set. -/
def internalClone (seen : List ℕ) : Graph → Value × List ℕ
  | .arr object xs =>
    let (xs, seen) := cloneArray (object :: seen) xs
    (.arr (dropUndefined xs), seen)
  | .obj object ms =>
    let data := unshareMembers ms
    if isObjectIdLike data then (.str (js "[object Object]"), seen)
    else if isHydrated data then cloneDoc seen ms
    else if isArguments data then
      -- The elements of `Array.from(val)`: own keys that are indices come first, in their order.
      let length := arrayLength rt data
      let (xs, seen) := cloneIndexed length (object :: seen) ms
      (.arr (dropUndefined (arrayFrom length xs)), seen)
    else
      let (ms, seen) := cloneMembers (object :: seen) ms
      (.obj (ms.foldl (fun ret m => assign m.1 m.2 ret) []), seen)
  | g => (unshare g, seen)

def cloneArray (seen : List ℕ) : List Graph → List Value × List ℕ
  | [] => ([], seen)
  | x :: xs =>
    if x.isSeen seen then
      let (xs, seen) := cloneArray seen xs
      (.undefined :: xs, seen)
    else
      let (x, seen) := internalClone (x.mark seen) x
      let (xs, seen) := cloneArray seen xs
      (x :: xs, seen)

def cloneMembers (seen : List ℕ) : List (Text × Graph) → List (Text × Value) × List ℕ
  | [] => ([], seen)
  | (k, g) :: ms =>
    if g.isSeen seen then cloneMembers seen ms
    else
      let (v, seen) := internalClone (g.mark seen) g
      let (ms, seen) := cloneMembers seen ms
      ((k, v) :: ms, seen)

/-- `internalClone(val._doc)` -/
def cloneDoc (seen : List ℕ) : List (Text × Graph) → Value × List ℕ
  | [] => (.undefined, seen)
  | (k, g) :: ms => if k = js "_doc" then internalClone seen g else cloneDoc seen ms

def cloneIndexed (length : ℕ) (seen : List ℕ) : List (Text × Graph) → List (Text × Value) × List ℕ
  | [] => ([], seen)
  | (k, g) :: ms =>
    if !isIndex length k || g.isSeen seen then cloneIndexed length seen ms
    else
      let (v, seen) := internalClone (g.mark seen) g
      let (ms, seen) := cloneIndexed length seen ms
      ((k, v) :: ms, seen)

end

def clone (g : Graph) : Value := (internalClone rt [] g).1

mutual

/-- `EJSON.toJSONValue`. Only the escape converter goes on to other values. -/
def toJSONValue : Graph → Value
  | .arr object xs => adjustedTo (Convert.toJSONValue rt) (clone rt (.arr object xs))
  | .obj object ms =>
    if tagged (unshareMembers ms) then
      .obj [(js "$escape", .obj ((toJSONMembers ms).foldl (fun ret m => assign m.1 m.2 ret) []))]
    else adjustedTo (Convert.toJSONValue rt) (clone rt (.obj object ms))
  | g => Convert.toJSONValue rt (unshare g)

def toJSONMembers : List (Text × Graph) → List (Text × Value)
  | [] => []
  | (k, g) :: ms => (k, toJSONValue g) :: toJSONMembers ms

end

def ejsonStringify (g : Graph) : Option Text := (toJson? (toJSONValue rt g)).map stringify

/-- `withInsertTimestamps(input, { now })` -/
def withInsertTimestamps (input : List (Text × Graph)) (now : Graph) : List (Text × Graph) :=
  setMember (js "updatedAt") now (setMember (js "createdAt") now input)

/-! ## What is left -/

mutual

/-- The unshared copy without what `internalClone` comes to again. -/
def remain (seen : List ℕ) : Graph → Value × List ℕ
  | .arr object xs =>
    let (xs, seen) := remainElems (object :: seen) xs
    (.arr xs, seen)
  | .obj object ms =>
    let data := unshareMembers ms
    if isObjectIdLike data then (.obj data, seen)
    else if isHydrated data then
      let (ms, seen) := remainDoc seen ms
      (.obj ms, seen)
    else if isArguments data then
      let (ms, seen) := remainIndexed (arrayLength rt data) (object :: seen) ms
      (.obj ms, seen)
    else
      let (ms, seen) := remainMembers (object :: seen) ms
      (.obj ms, seen)
  | g => (unshare g, seen)

def remainElems (seen : List ℕ) : List Graph → List Value × List ℕ
  | [] => ([], seen)
  | x :: xs =>
    if x.isSeen seen then remainElems seen xs
    else
      let (x, seen) := remain (x.mark seen) x
      let (xs, seen) := remainElems seen xs
      (x :: xs, seen)

def remainMembers (seen : List ℕ) : List (Text × Graph) → List (Text × Value) × List ℕ
  | [] => ([], seen)
  | (k, g) :: ms =>
    if g.isSeen seen then remainMembers seen ms
    else
      let (v, seen) := remain (g.mark seen) g
      let (ms, seen) := remainMembers seen ms
      ((k, v) :: ms, seen)

/-- Only the document is gone over. -/
def remainDoc (seen : List ℕ) : List (Text × Graph) → List (Text × Value) × List ℕ
  | [] => ([], seen)
  | (k, g) :: ms =>
    if k = js "_doc" then
      let (v, seen) := remain seen g
      ((k, v) :: unshareMembers ms, seen)
    else
      let (ms, seen) := remainDoc seen ms
      ((k, unshare g) :: ms, seen)

/-- Only the elements are gone over. -/
def remainIndexed (length : ℕ) (seen : List ℕ) : List (Text × Graph) → List (Text × Value) × List ℕ
  | [] => ([], seen)
  | (k, g) :: ms =>
    if !isIndex length k then
      let (ms, seen) := remainIndexed length seen ms
      ((k, unshare g) :: ms, seen)
    else if g.isSeen seen then remainIndexed length seen ms
    else
      let (v, seen) := remain (g.mark seen) g
      let (ms, seen) := remainIndexed length seen ms
      ((k, v) :: ms, seen)

end

end

/-! ## Fuel

The calls of the escape converter go to smaller values, so that any fuel beyond the depth gives the same. -/

section
variable {rt : Runtime} {rec rec' : Value → Value}

theorem foldl_assign_congr {ms : List (Text × Value)} (h : ∀ m ∈ ms, rec m.2 = rec' m.2) (acc : List (Text × Value)) :
    ms.foldl (fun ret m => assign m.1 (rec m.2) ret) acc = ms.foldl (fun ret m => assign m.1 (rec' m.2) ret) acc :=
  List.foldl_ext _ _ _ fun ret m hm => by rw [h m hm]

theorem helper_congr {v : Value} (h : ∀ x, depth x < depth v → rec x = rec' x) :
    toJSONValueHelper rec v = toJSONValueHelper rec' v := by
  cases v with
  | obj ms =>
    have hms (m : Text × Value) (hm : m ∈ ms) : rec m.2 = rec' m.2 := by
      refine h m.2 ?_
      have := depth_of_mem m hm
      rw [depth]
      omega
    rw [toJSONValueHelper_obj, toJSONValueHelper_obj, Converter.toJSONValue, Converter.toJSONValue,
      foldl_assign_congr hms]
  | num n => cases n <;> rfl
  | _ => rfl

mutual

theorem adjust_congr : ∀ {v : Value}, (∀ x, depth x < depth v → rec x = rec' x) →
    adjustTypesToJSONValue rec v = adjustTypesToJSONValue rec' v
  | .arr xs, h => by
    rw [adjustTypesToJSONValue, adjustTypesToJSONValue, helper_congr h, adjustElems_congr fun x hx => h x ?_]
    rw [depth]
    omega
  | .obj ms, h => by
    rw [adjustTypesToJSONValue, adjustTypesToJSONValue, helper_congr h, adjustMembers_congr fun x hx => h x ?_]
    rw [depth]
    omega
  | .num n, _ => by cases n <;> rfl
  | .undefined, _ | .null, _ | .bool _, _ | .str _, _ | .date _, _ | .regexp _, _ | .binary _, _ => rfl

theorem adjustElems_congr : ∀ {xs : List Value}, (∀ x, depth x < depthElems xs → rec x = rec' x) →
    adjustElemsTo rec xs = adjustElemsTo rec' xs
  | [], _ => rfl
  | x :: xs, h => by
    rw [depthElems] at h
    rw [adjustElemsTo, adjustElemsTo, helper_congr fun y hy => h y (by omega), adjust_congr fun y hy => h y (by omega),
      adjustElems_congr fun y hy => h y (by omega)]

theorem adjustMembers_congr : ∀ {ms : List (Text × Value)}, (∀ x, depth x < depthMembers ms → rec x = rec' x) →
    adjustMembersTo rec ms = adjustMembersTo rec' ms
  | [], _ => rfl
  | (k, x) :: ms, h => by
    rw [depthMembers] at h
    rw [adjustMembersTo, adjustMembersTo, helper_congr fun y hy => h y (by omega),
      adjust_congr fun y hy => h y (by omega), adjustMembers_congr fun y hy => h y (by omega)]

end

theorem adjustedTo_congr {v : Value} (h : ∀ x, depth x < depth v → rec x = rec' x) :
    adjustedTo rec v = adjustedTo rec' v := by
  rw [adjustedTo, adjustedTo, helper_congr h, adjust_congr h]

mutual

theorem depth_clone (rt : Runtime) : ∀ v : Value, depth (Clone.clone rt v) ≤ depth v
  | .arr xs => by
    rw [Clone.clone, cloneElems_eq]
    refine Nat.add_le_add_left (depthElems_le.mpr fun y hy => ?_) 1
    obtain ⟨x, hx, rfl⟩ := List.mem_map.mp (List.mem_filter.mp hy).1
    exact depth_cloneElems rt xs x hx
  | .obj ms => by
    have hc := clonesTo rt ms
    have hdepth := depth_cloneMembers rt ms
    generalize Clone.clone rt (.obj ms) = c at hc ⊢
    cases hc with
    | text _ => exact Nat.zero_le _
    | document d _ hd => exact Nat.le_trans (hdepth _ hd) (Nat.le_add_left _ _)
    | array ys _ hys =>
      refine Nat.add_le_add_left (depthElems_le.mpr fun y hy => ?_) 1
      obtain ⟨m, hm, rfl⟩ := hys y hy
      exact hdepth m hm
    | object _ =>
      refine Nat.add_le_add_left (depthMembers_le.mpr fun m hm => ?_) 1
      rcases mem_rebuilt hm with hm | ⟨hm, -⟩
      · cases hm
      · rw [cloneMembers_eq] at hm
        obtain ⟨m', hm', rfl⟩ := List.mem_map.mp hm
        exact hdepth m' hm'
  | .undefined | .null | .bool _ | .num _ | .str _ | .date _ | .regexp _ | .binary _ => Nat.le_refl _

theorem depth_cloneElems (rt : Runtime) : ∀ xs : List Value, ∀ x ∈ xs, depth (Clone.clone rt x) ≤ depthElems xs
  | [], _, hx => by cases hx
  | x :: xs, y, hy => by
    rw [depthElems]
    rcases List.mem_cons.mp hy with hyx | hy
    · rw [hyx]
      exact Nat.le_trans (depth_clone rt x) (Nat.le_max_left _ _)
    · exact Nat.le_trans (depth_cloneElems rt xs y hy) (Nat.le_max_right _ _)

theorem depth_cloneMembers (rt : Runtime) : ∀ ms : List (Text × Value),
    ∀ m ∈ ms, depth (Clone.clone rt m.2) ≤ depthMembers ms
  | [], _, hm => by cases hm
  | (k, v) :: ms, m, hm => by
    rw [depthMembers]
    rcases List.mem_cons.mp hm with hmk | hm
    · rw [hmk]
      exact Nat.le_trans (depth_clone rt v) (Nat.le_max_left _ _)
    · exact Nat.le_trans (depth_cloneMembers rt ms m hm) (Nat.le_max_right _ _)

end

theorem toJSONValueFuel_irrelevant : ∀ {m n : ℕ} {v : Value}, depth v < m → depth v < n →
    toJSONValueFuel rt m v = toJSONValueFuel rt n v
  | m + 1, n + 1, v, hm, hn => by
    have hrec (x : Value) (hx : depth x < depth v) : toJSONValueFuel rt m x = toJSONValueFuel rt n x :=
      @toJSONValueFuel_irrelevant m n x (by omega) (by omega)
    have hclone := depth_clone rt v
    rw [toJSONValueFuel, toJSONValueFuel, helper_congr hrec, adjustedTo_congr fun x hx => hrec x (by omega)]

/-- `EJSON.toJSONValue` calls itself. -/
theorem toJSONValue_eq (v : Value) : Convert.toJSONValue rt v =
    match toJSONValueHelper (Convert.toJSONValue rt) v with
    | some changed => changed
    | none => if v.isObject then adjustedTo (Convert.toJSONValue rt) (Clone.clone rt v) else v := by
  have hrec (x : Value) (hx : depth x < depth v) : toJSONValueFuel rt (depth v) x = Convert.toJSONValue rt x :=
    toJSONValueFuel_irrelevant hx (Nat.lt_succ_self _)
  have hclone := depth_clone rt v
  rw [← helper_congr hrec, ← adjustedTo_congr fun x hx => hrec x (by omega)]
  rfl

end

/-! ## The clone is the clone of what is left -/

/-- Objects that `clone` takes for something else. -/
def isSpecial (ms : List (Text × Value)) : Bool := isObjectIdLike ms || isHydrated ms || isArguments ms

section
variable (rt : Runtime)

mutual

/-- No object comes to be taken for something else because members are left out of it. -/
def steady (seen : List ℕ) : Graph → Bool
  | .arr object xs => steadyElems (object :: seen) xs
  | .obj object ms =>
    let data := unshareMembers ms
    if isObjectIdLike data then true
    else if isHydrated data then steadyDoc seen ms
    else if isArguments data then steadyIndexed (arrayLength rt data) (object :: seen) ms
    else !isSpecial (remainMembers rt (object :: seen) ms).1 && steadyMembers (object :: seen) ms
  | _ => true

def steadyElems (seen : List ℕ) : List Graph → Bool
  | [] => true
  | x :: xs =>
    if x.isSeen seen then steadyElems seen xs
    else steady (x.mark seen) x && steadyElems (remain rt (x.mark seen) x).2 xs

def steadyMembers (seen : List ℕ) : List (Text × Graph) → Bool
  | [] => true
  | (_, g) :: ms =>
    if g.isSeen seen then steadyMembers seen ms
    else steady (g.mark seen) g && steadyMembers (remain rt (g.mark seen) g).2 ms

def steadyDoc (seen : List ℕ) : List (Text × Graph) → Bool
  | [] => true
  | (k, g) :: ms => if k = js "_doc" then steady seen g else steadyDoc seen ms

def steadyIndexed (length : ℕ) (seen : List ℕ) : List (Text × Graph) → Bool
  | [] => true
  | (k, g) :: ms =>
    if !isIndex length k || g.isSeen seen then steadyIndexed length seen ms
    else steady (g.mark seen) g && steadyIndexed length (remain rt (g.mark seen) g).2 ms

end

end

section
variable {rt : Runtime}

theorem isObjectAndNotNull_remain (seen : List ℕ) (g : Graph) :
    (remain rt seen g).1.isObjectAndNotNull = (unshare g).isObjectAndNotNull := by
  cases g with
  | obj object ms =>
    rw [remain]
    dsimp only
    split_ifs <;> rfl
  | _ => rfl

/-! ### Members that are not gone over -/

theorem getOwn_remainDoc {k : Text} (hk : k ≠ js "_doc") (seen : List ℕ) (ms : List (Text × Graph)) :
    getOwn k (remainDoc rt seen ms).1 = getOwn k (unshareMembers ms) := by
  induction ms with
  | nil => rfl
  | cons m ms ih =>
    obtain ⟨k', g⟩ := m
    rw [remainDoc, unshareMembers]
    split
    · next hdoc =>
      have hne : (k == k') = false := beq_false_of_ne (hdoc ▸ hk)
      simp only [getOwn, List.lookup_cons, hne]
    · simp only [getOwn, List.lookup_cons] at ih ⊢
      rw [ih]

theorem getOwn_doc (seen : List ℕ) (ms : List (Text × Graph)) :
    ((getOwn (js "_doc") (remainDoc rt seen ms).1).getD .undefined).isObjectAndNotNull =
      ((getOwn (js "_doc") (unshareMembers ms)).getD .undefined).isObjectAndNotNull := by
  induction ms with
  | nil => rfl
  | cons m ms ih =>
    obtain ⟨k', g⟩ := m
    rw [remainDoc, unshareMembers]
    split
    · next hdoc =>
      subst hdoc
      simp [getOwn, isObjectAndNotNull_remain]
    · next hdoc =>
      have hne : (js "_doc" == k') = false := beq_false_of_ne (Ne.symm hdoc)
      simp only [getOwn, List.lookup_cons, hne] at ih ⊢
      exact ih

theorem getOwn_remainIndexed {length : ℕ} {k : Text} (hk : isIndex length k = false) (seen : List ℕ)
    (ms : List (Text × Graph)) : getOwn k (remainIndexed rt length seen ms).1 = getOwn k (unshareMembers ms) := by
  induction ms generalizing seen with
  | nil => rfl
  | cons m ms ih =>
    obtain ⟨k', g⟩ := m
    have hne (h : isIndex length k' = true) : (k == k') = false := by
      refine beq_false_of_ne ?_
      rintro rfl
      exact Bool.noConfusion (hk.symm.trans h)
    rw [remainIndexed, unshareMembers]
    split
    · simp only [getOwn, List.lookup_cons] at ih ⊢
      rw [ih]
    · next hindex =>
      have hne := hne (by simpa using hindex)
      split
      · rw [ih]
        simp only [getOwn, List.lookup_cons, hne]
      · simp only [getOwn, List.lookup_cons, hne] at ih ⊢
        rw [ih]

/-- The keys by which `clone` tells what an object is, except `_doc`. -/
def tellingKeys : List Text :=
  [js "_bsontype", js "toString", js "constructor", js "$__", js "callee", js "length"]

/-- What the clone of an object is found by is still there. -/
structure Alike (rt : Runtime) (ms ms' : List (Text × Value)) : Prop where
  objectId : isObjectIdLike ms' = isObjectIdLike ms
  hydrated : isHydrated ms' = isHydrated ms
  arguments : isArguments ms' = isArguments ms
  length : arrayLength rt ms' = arrayLength rt ms

theorem alike_of_telling {ms ms' : List (Text × Value)} (h : ∀ k ∈ tellingKeys, getOwn k ms' = getOwn k ms)
    (hdoc : ((getOwn (js "_doc") ms').getD .undefined).isObjectAndNotNull =
      ((getOwn (js "_doc") ms).getD .undefined).isObjectAndNotNull) : Alike rt ms ms' := by
  simp only [tellingKeys, List.forall_mem_cons] at h
  obtain ⟨hbson, htoString, hconstructor, hdollar, hcallee, hlength, -⟩ := h
  refine ⟨?_, ?_, ?_, ?_⟩
  · simp only [isObjectIdLike, hasOwn, hbson, htoString]
  · simp only [isHydrated, isModelLike, hconstructor, hdollar, hdoc]
  · simp only [isArguments, hasOwn, hcallee]
  · simp only [arrayLength, hlength]

theorem isIndex_eq_false {length : ℕ} {k : Text} (h : ∃ u ∈ k, ∀ d < 10, u ≠ unit d) : isIndex length k = false := by
  refine Bool.eq_false_iff.mpr fun hk => ?_
  obtain ⟨i, -, hi⟩ := List.any_eq_true.mp hk
  obtain ⟨u, hu, hunit⟩ := h
  rw [← of_decide_eq_true hi, indexText] at hu
  obtain ⟨d, hd, rfl⟩ := List.mem_map.mp hu
  exact hunit d (digitsOf_lt hd) rfl

theorem telling_notIndex (length : ℕ) : (∀ k ∈ tellingKeys, isIndex length k = false) ∧
    isIndex length (js "_doc") = false := by
  have hkeys : ∀ k ∈ tellingKeys, ∃ u ∈ k, ∀ d < 10, u ≠ unit d := by decide
  exact ⟨fun k hk => isIndex_eq_false (hkeys k hk), isIndex_eq_false (by decide)⟩

theorem alike_remainDoc (seen : List ℕ) (ms : List (Text × Graph)) :
    Alike rt (unshareMembers ms) (remainDoc rt seen ms).1 := by
  have hkeys : ∀ k ∈ tellingKeys, k ≠ js "_doc" := by decide
  exact alike_of_telling (fun k hk => getOwn_remainDoc (hkeys k hk) seen ms) (getOwn_doc seen ms)

theorem alike_remainIndexed (length : ℕ) (seen : List ℕ) (ms : List (Text × Graph)) :
    Alike rt (unshareMembers ms) (remainIndexed rt length seen ms).1 := by
  obtain ⟨hkeys, hdoc⟩ := telling_notIndex length
  exact alike_of_telling (fun k hk => getOwn_remainIndexed (hkeys k hk) seen ms) (by rw [getOwn_remainIndexed hdoc])

/-! ### The two traversals -/

mutual

theorem internalClone_eq : ∀ (g : Graph) (seen : List ℕ), steady rt seen g = true →
    internalClone rt seen g = (Clone.clone rt (remain rt seen g).1, (remain rt seen g).2)
  | .arr object xs, seen, h => by
    obtain ⟨hxs, hseen⟩ := cloneArray_eq xs (object :: seen) h
    rw [internalClone, remain]
    simp only [Clone.clone, hxs, hseen]
  | .obj object ms, seen, h => by
    rw [steady] at h
    rw [internalClone, remain]
    dsimp only at h ⊢
    split_ifs at h ⊢ with hid hhydrated harguments
    · simp [hid, Clone.clone]
    · have halike := @alike_remainDoc rt seen ms
      rw [cloneDoc_eq ms seen h]
      simp [Clone.clone, halike.objectId, halike.hydrated, hid, hhydrated]
    · have halike := @alike_remainIndexed rt (arrayLength rt (unshareMembers ms)) (object :: seen) ms
      obtain ⟨hown, hseen⟩ := cloneIndexed_eq (arrayLength rt (unshareMembers ms)) ms (object :: seen) h
      have hfrom : arrayFrom (arrayLength rt (unshareMembers ms))
          (cloneIndexed rt (arrayLength rt (unshareMembers ms)) (object :: seen) ms).1 =
          arrayFrom (arrayLength rt (unshareMembers ms)) (Clone.cloneMembers rt
            (remainIndexed rt (arrayLength rt (unshareMembers ms)) (object :: seen) ms).1) :=
        List.map_congr_left fun i hi => by
          rw [hown _ (List.any_eq_true.mpr ⟨i, hi, decide_eq_true rfl⟩)]
      simp [Clone.clone, halike.objectId, halike.hydrated, halike.arguments, halike.length, hid, hhydrated, harguments,
        hfrom, hseen]
    · simp only [Bool.and_eq_true, Bool.not_eq_true', isSpecial, Bool.or_eq_false_iff] at h
      obtain ⟨⟨⟨hid', hhydrated'⟩, harguments'⟩, h⟩ := h
      rw [cloneMembers_eq' ms (object :: seen) h]
      simp [Clone.clone, hid', hhydrated', harguments']
  | .null, _, _ | .bool _, _, _ | .num _, _, _ | .str _, _, _ | .date _ _, _, _ | .regexp _ _, _, _
  | .binary _ _, _, _ => rfl

theorem cloneArray_eq : ∀ (xs : List Graph) (seen : List ℕ), steadyElems rt seen xs = true →
    dropUndefined (cloneArray rt seen xs).1 = dropUndefined (cloneElems rt (remainElems rt seen xs).1) ∧
      (cloneArray rt seen xs).2 = (remainElems rt seen xs).2
  | [], _, _ => ⟨rfl, rfl⟩
  | x :: xs, seen, h => by
    rw [steadyElems] at h
    rw [cloneArray, remainElems]
    split at h
    · next hseen =>
      obtain ⟨hxs, hset⟩ := cloneArray_eq xs seen h
      simp only [hseen, if_true]
      exact ⟨hxs, hset⟩
    · next hseen =>
      obtain ⟨hx, hxs⟩ := (Bool.and_eq_true _ _).mp h
      obtain ⟨hxs, hset⟩ := cloneArray_eq xs _ hxs
      simp only [hseen, Bool.false_eq_true, if_false, internalClone_eq x _ hx]
      refine ⟨?_, hset⟩
      simp only [dropUndefined, cloneElems, List.filter_cons] at hxs ⊢
      rw [hxs]

theorem cloneMembers_eq' : ∀ (ms : List (Text × Graph)) (seen : List ℕ), steadyMembers rt seen ms = true →
    cloneMembers rt seen ms = (Clone.cloneMembers rt (remainMembers rt seen ms).1, (remainMembers rt seen ms).2)
  | [], _, _ => rfl
  | (k, g) :: ms, seen, h => by
    rw [steadyMembers] at h
    rw [cloneMembers, remainMembers]
    split at h
    · next hseen =>
      simp only [hseen, if_true]
      exact cloneMembers_eq' ms seen h
    · next hseen =>
      obtain ⟨hg, hms⟩ := (Bool.and_eq_true _ _).mp h
      simp only [hseen, Bool.false_eq_true, if_false, internalClone_eq g _ hg, cloneMembers_eq' ms _ hms,
        Clone.cloneMembers]

theorem cloneDoc_eq : ∀ (ms : List (Text × Graph)) (seen : List ℕ), steadyDoc rt seen ms = true →
    cloneDoc rt seen ms = (cloneMember rt (js "_doc") (remainDoc rt seen ms).1, (remainDoc rt seen ms).2)
  | [], _, _ => rfl
  | (k, g) :: ms, seen, h => by
    rw [steadyDoc] at h
    rw [cloneDoc, remainDoc]
    split at h
    · next hk =>
      simp only [hk, if_true, internalClone_eq g _ h, cloneMember]
    · next hk =>
      simp only [hk, if_false, cloneDoc_eq ms seen h, cloneMember]

theorem cloneIndexed_eq (length : ℕ) : ∀ (ms : List (Text × Graph)) (seen : List ℕ),
    steadyIndexed rt length seen ms = true →
    (∀ k, isIndex length k = true → getOwn k (cloneIndexed rt length seen ms).1 =
      getOwn k (Clone.cloneMembers rt (remainIndexed rt length seen ms).1)) ∧
      (cloneIndexed rt length seen ms).2 = (remainIndexed rt length seen ms).2
  | [], _, _ => ⟨fun _ _ => rfl, rfl⟩
  | (k, g) :: ms, seen, h => by
    rw [steadyIndexed] at h
    rw [cloneIndexed, remainIndexed]
    cases hindex : isIndex length k with
    | false =>
      simp only [hindex, Bool.not_false, Bool.true_or, if_true] at h ⊢
      obtain ⟨hown, hset⟩ := cloneIndexed_eq length ms seen h
      refine ⟨fun k' hk' => ?_, hset⟩
      have hne : (k' == k) = false := by
        refine beq_false_of_ne ?_
        rintro rfl
        exact Bool.noConfusion (hindex.symm.trans hk')
      rw [hown k' hk', Clone.cloneMembers]
      simp only [getOwn, List.lookup_cons, hne]
    | true =>
      simp only [hindex, Bool.not_true, Bool.false_or] at h ⊢
      split at h
      · next hseen =>
        simp only [hseen, if_true]
        exact cloneIndexed_eq length ms seen h
      · next hseen =>
        obtain ⟨hg, hms⟩ := (Bool.and_eq_true _ _).mp h
        obtain ⟨hown, hset⟩ := cloneIndexed_eq length ms _ hms
        simp only [hseen, Bool.false_eq_true, if_false, internalClone_eq g _ hg]
        refine ⟨fun k' hk' => ?_, hset⟩
        simp only [Clone.cloneMembers, getOwn, List.lookup_cons] at hown ⊢
        split
        · rfl
        · exact hown k' hk'

end

end

/-! ## On the wire -/

section
variable (rt : Runtime)

mutual

/-- The unshared copy without what is lost. The members of an object that is escaped are gone over one by one. -/
def remaining : Graph → Value
  | .obj object ms =>
    if tagged (unshareMembers ms) then .obj (remainingMembers ms) else (remain rt [] (.obj object ms)).1
  | g => (remain rt [] g).1

def remainingMembers : List (Text × Graph) → List (Text × Value)
  | [] => []
  | (k, g) :: ms => (k, remaining g) :: remainingMembers ms

end

def isTagged : Value → Bool
  | .obj ms => tagged ms
  | _ => false

mutual

/-- Nothing comes to be taken for something else because of what is left out: no object by `clone`, and the value
itself not for a tag. -/
def kept : Graph → Bool
  | .obj object ms =>
    if tagged (unshareMembers ms) then keptMembers ms
    else steady rt [] (.obj object ms) && !isTagged (remain rt [] (.obj object ms)).1
  | g => steady rt [] g

def keptMembers : List (Text × Graph) → Bool
  | [] => true
  | (_, g) :: ms => kept g && keptMembers ms

end

end

section
variable {rt : Runtime}

theorem remainingMembers_keys : ∀ ms : List (Text × Graph),
    (remainingMembers rt ms).map Prod.fst = (unshareMembers ms).map Prod.fst
  | [] => rfl
  | (k, g) :: ms => by rw [remainingMembers, unshareMembers, List.map_cons, List.map_cons, remainingMembers_keys ms]

/-- Objects that are no tags are cloned and adjusted. -/
theorem toJSONValue_cloned {v : Value} (h : isTagged v = false) (hv : (∃ xs, v = .arr xs) ∨ ∃ ms, v = .obj ms) :
    Convert.toJSONValue rt v = adjustedTo (Convert.toJSONValue rt) (Clone.clone rt v) := by
  rw [toJSONValue_eq]
  rcases hv with ⟨xs, rfl⟩ | ⟨ms, rfl⟩
  · rfl
  · have hms : tagged ms = false := h
    rw [toJSONValueHelper_obj, hms]
    rfl

theorem remain_obj (seen : List ℕ) (object : ℕ) (ms : List (Text × Graph)) :
    ∃ ms', (remain rt seen (.obj object ms)).1 = .obj ms' := by
  rw [remain]
  dsimp only
  split_ifs <;> exact ⟨_, rfl⟩

mutual

theorem toJSONValue_remaining : ∀ g : Graph, kept rt g = true →
    toJSONValue rt g = Convert.toJSONValue rt (remaining rt g)
  | .arr object xs, h => by
    have hremaining : remaining rt (.arr object xs) = (remain rt [] (.arr object xs)).1 := rfl
    rw [toJSONValue, hremaining, clone, internalClone_eq (.arr object xs) [] h]
    exact (toJSONValue_cloned rfl (.inl ⟨_, rfl⟩)).symm
  | .obj object ms, h => by
    rw [kept] at h
    rw [toJSONValue, remaining]
    split at h
    · next htagged =>
      have htagged' : tagged (remainingMembers rt ms) = true := by
        rw [tagged_congr (remainingMembers_keys ms), htagged]
      rw [if_pos htagged, if_pos htagged, toJSONValue_eq, toJSONValueHelper_obj, if_pos htagged',
        toJSONMembers_remaining ms h, List.foldl_map]
      rfl
    · next htagged =>
      obtain ⟨hsteady, hnot⟩ := (Bool.and_eq_true _ _).mp h
      rw [if_neg htagged, if_neg htagged, clone, internalClone_eq _ _ hsteady]
      exact (toJSONValue_cloned (by simpa using hnot) (.inr (remain_obj ..))).symm
  | .null, _ | .bool _, _ | .num _, _ | .str _, _ | .date _ _, _ | .regexp _ _, _ | .binary _ _, _ => rfl

theorem toJSONMembers_remaining : ∀ ms : List (Text × Graph), keptMembers rt ms = true →
    toJSONMembers rt ms = (remainingMembers rt ms).map fun m => (m.1, Convert.toJSONValue rt m.2)
  | [], _ => rfl
  | (k, g) :: ms, h => by
    obtain ⟨hg, hms⟩ := (Bool.and_eq_true _ _).mp h
    rw [toJSONMembers, remainingMembers, List.map_cons, toJSONValue_remaining g hg, toJSONMembers_remaining ms hms]

end

/-! ### Nothing is shared -/

mutual

/-- The objects of a value, each as often as it is reached. -/
def objects : Graph → List ℕ
  | .arr object xs => object :: objectsElems xs
  | .obj object ms => object :: objectsMembers ms
  | g => g.object?.toList

def objectsElems : List Graph → List ℕ
  | [] => []
  | x :: xs => objects x ++ objectsElems xs

def objectsMembers : List (Text × Graph) → List ℕ
  | [] => []
  | (_, g) :: ms => objects g ++ objectsMembers ms

end

/-- The objects below a value. -/
def below : Graph → List ℕ
  | .arr _ xs => objectsElems xs
  | .obj _ ms => objectsMembers ms
  | _ => []

theorem objects_eq (g : Graph) : objects g = g.object?.toList ++ below g := by
  cases g <;> rfl

/-- Everything is left, and only these objects are marked. -/
structure Whole {α : Type} (seen objects : List ℕ) (copy : α) (result : α × List ℕ) (steadily : Bool) : Prop where
  copied : result.1 = copy
  marked : ∀ o ∈ result.2, o ∈ seen ∨ o ∈ objects
  steady : steadily = true

/-- A child that is reached for the first time, and what comes behind it. -/
structure FirstTime (seen : List ℕ) (g : Graph) (rest : List ℕ) : Prop where
  unseen : g.isSeen seen = false
  nodup : (objects g).Nodup
  fresh : ∀ o ∈ below g, o ∉ g.mark seen
  rest_nodup : rest.Nodup
  rest_fresh : ∀ set : List ℕ, (∀ o ∈ set, o ∈ g.mark seen ∨ o ∈ objects g) → ∀ o ∈ rest, o ∉ set
  marked : ∀ set : List ℕ, (∀ o ∈ set, o ∈ g.mark seen ∨ o ∈ objects g) → ∀ o ∈ set, o ∈ seen ∨ o ∈ objects g

theorem firstTime {seen : List ℕ} {g : Graph} {rest : List ℕ} (hn : (objects g ++ rest).Nodup)
    (hf : ∀ o ∈ objects g ++ rest, o ∉ seen) : FirstTime seen g rest := by
  obtain ⟨hg, hrest, hdisjoint⟩ := List.nodup_append.mp hn
  have hmark (o : ℕ) (ho : o ∈ g.mark seen) : o ∈ g.object?.toList ∨ o ∈ seen := List.mem_append.mp ho
  have hroot (o : ℕ) (ho : o ∈ g.object?.toList) : o ∈ objects g := by
    rw [objects_eq]
    exact List.mem_append_left _ ho
  have hset (set : List ℕ) (h : ∀ o ∈ set, o ∈ g.mark seen ∨ o ∈ objects g) (o : ℕ) (ho : o ∈ set) :
      o ∈ seen ∨ o ∈ objects g := by
    rcases h o ho with ho | ho
    · exact (hmark o ho).symm.imp_right (hroot o)
    · exact .inr ho
  refine ⟨?_, hg, fun o ho hseen => ?_, hrest, fun set h o ho hin => ?_, hset⟩
  · cases hobject : g.object? with
    | none => rw [Graph.isSeen, hobject, Option.any_none]
    | some o =>
      rw [Graph.isSeen, hobject, Option.any_some]
      exact decide_eq_false (hf o (List.mem_append_left _ (hroot o (by simp [hobject]))))
  · rw [objects_eq] at hg hf
    rcases hmark o hseen with hroot | hseen
    · exact (List.nodup_append.mp hg).2.2 o hroot o ho rfl
    · exact hf o (List.mem_append_left _ (List.mem_append_right _ ho)) hseen
  · rcases hset set h o hin with hseen | hg
    · exact hf o (List.mem_append_right _ ho) hseen
    · exact hdisjoint o hg o ho rfl

theorem FirstTime.marked_rest {seen : List ℕ} {g : Graph} {rest set set' : List ℕ} (h : FirstTime seen g rest)
    (hset : ∀ o ∈ set, o ∈ g.mark seen ∨ o ∈ objects g) (hset' : ∀ o ∈ set', o ∈ set ∨ o ∈ rest) :
    ∀ o ∈ set', o ∈ seen ∨ o ∈ objects g ++ rest := by
  intro o ho
  rcases hset' o ho with ho | ho
  · exact (h.marked set hset o ho).imp_right (List.mem_append_left _)
  · exact .inr (List.mem_append_right _ ho)

theorem fresh_cons {object : ℕ} {below seen : List ℕ} (hobject : object ∉ below) (hf : ∀ o ∈ below, o ∉ seen) :
    ∀ o ∈ below, o ∉ object :: seen := by
  intro o ho hin
  rcases List.mem_cons.mp hin with rfl | hin
  · exact hobject ho
  · exact hf o ho hin

theorem marked_cons {object : ℕ} {below seen set : List ℕ} (h : ∀ o ∈ set, o ∈ object :: seen ∨ o ∈ below) :
    ∀ o ∈ set, o ∈ seen ∨ o ∈ object :: below := by
  intro o ho
  rcases h o ho with ho | ho
  · rcases List.mem_cons.mp ho with rfl | ho
    · exact .inr (.head _)
    · exact .inl ho
  · exact .inr (.tail _ ho)

mutual

theorem whole_remain : ∀ (g : Graph) (seen : List ℕ), (objects g).Nodup → (∀ o ∈ below g, o ∉ seen) →
    Whole seen (objects g) (unshare g) (remain rt seen g) (steady rt seen g)
  | .arr object xs, seen, hn, hf => by
    obtain ⟨hobject, hn⟩ := List.nodup_cons.mp hn
    have hxs := whole_remainElems xs (object :: seen) hn (fresh_cons hobject hf)
    rw [remain, steady, unshare]
    exact ⟨by simp only [hxs.copied], marked_cons hxs.marked, hxs.steady⟩
  | .obj object ms, seen, hn, hf => by
    obtain ⟨hobject, hn⟩ := List.nodup_cons.mp hn
    rw [remain, steady, unshare]
    dsimp only
    split_ifs with hid hhydrated harguments
    · exact ⟨rfl, fun _ => .inl, rfl⟩
    · have hms := whole_remainDoc ms seen hn hf
      exact ⟨by simp only [hms.copied], fun o ho => (hms.marked o ho).imp_right (List.mem_cons_of_mem _), hms.steady⟩
    · have hms := whole_remainIndexed (arrayLength rt (unshareMembers ms)) ms (object :: seen) hn (fresh_cons hobject hf)
      exact ⟨by simp only [hms.copied], marked_cons hms.marked, hms.steady⟩
    · have hms := whole_remainMembers ms (object :: seen) hn (fresh_cons hobject hf)
      refine ⟨by simp only [hms.copied], marked_cons hms.marked, ?_⟩
      simp [hms.copied, hms.steady, isSpecial, hid, hhydrated, harguments]
  | .null, _, _, _ | .bool _, _, _, _ | .num _, _, _, _ | .str _, _, _, _ | .date _ _, _, _, _ | .regexp _ _, _, _, _
  | .binary _ _, _, _, _ => ⟨rfl, fun _ => .inl, rfl⟩

theorem whole_remainElems : ∀ (xs : List Graph) (seen : List ℕ), (objectsElems xs).Nodup →
    (∀ o ∈ objectsElems xs, o ∉ seen) →
    Whole seen (objectsElems xs) (unshareElems xs) (remainElems rt seen xs) (steadyElems rt seen xs)
  | [], _, _, _ => ⟨rfl, fun _ => .inl, rfl⟩
  | x :: xs, seen, hn, hf => by
    have hfirst := firstTime hn hf
    have hx := whole_remain x (x.mark seen) hfirst.nodup hfirst.fresh
    have hxs := whole_remainElems xs _ hfirst.rest_nodup (hfirst.rest_fresh _ hx.marked)
    rw [remainElems, steadyElems]
    simp only [hfirst.unseen, Bool.false_eq_true, if_false]
    exact ⟨by simp only [hx.copied, hxs.copied, unshareElems], hfirst.marked_rest hx.marked hxs.marked,
      by simp only [hx.steady, hxs.steady, Bool.and_self]⟩

theorem whole_remainMembers : ∀ (ms : List (Text × Graph)) (seen : List ℕ), (objectsMembers ms).Nodup →
    (∀ o ∈ objectsMembers ms, o ∉ seen) →
    Whole seen (objectsMembers ms) (unshareMembers ms) (remainMembers rt seen ms) (steadyMembers rt seen ms)
  | [], _, _, _ => ⟨rfl, fun _ => .inl, rfl⟩
  | (k, g) :: ms, seen, hn, hf => by
    have hfirst := firstTime hn hf
    have hg := whole_remain g (g.mark seen) hfirst.nodup hfirst.fresh
    have hms := whole_remainMembers ms _ hfirst.rest_nodup (hfirst.rest_fresh _ hg.marked)
    rw [remainMembers, steadyMembers]
    simp only [hfirst.unseen, Bool.false_eq_true, if_false]
    exact ⟨by simp only [hg.copied, hms.copied, unshareMembers], hfirst.marked_rest hg.marked hms.marked,
      by simp only [hg.steady, hms.steady, Bool.and_self]⟩

theorem whole_remainDoc : ∀ (ms : List (Text × Graph)) (seen : List ℕ), (objectsMembers ms).Nodup →
    (∀ o ∈ objectsMembers ms, o ∉ seen) →
    Whole seen (objectsMembers ms) (unshareMembers ms) (remainDoc rt seen ms) (steadyDoc rt seen ms)
  | [], _, _, _ => ⟨rfl, fun _ => .inl, rfl⟩
  | (k, g) :: ms, seen, hn, hf => by
    obtain ⟨hng, hnms, -⟩ := List.nodup_append.mp hn
    have hfg : ∀ o ∈ below g, o ∉ seen := fun o ho => by
      refine hf o (List.mem_append_left _ ?_)
      rw [objects_eq]
      exact List.mem_append_right _ ho
    rw [remainDoc, steadyDoc]
    split
    · have hg := whole_remain g seen hng hfg
      exact ⟨by simp only [hg.copied, unshareMembers], fun o ho => (hg.marked o ho).imp_right (List.mem_append_left _),
        hg.steady⟩
    · have hms := whole_remainDoc ms seen hnms fun o ho => hf o (List.mem_append_right _ ho)
      exact ⟨by simp only [hms.copied, unshareMembers],
        fun o ho => (hms.marked o ho).imp_right (List.mem_append_right _), hms.steady⟩

theorem whole_remainIndexed (length : ℕ) : ∀ (ms : List (Text × Graph)) (seen : List ℕ), (objectsMembers ms).Nodup →
    (∀ o ∈ objectsMembers ms, o ∉ seen) → Whole seen (objectsMembers ms) (unshareMembers ms)
      (remainIndexed rt length seen ms) (steadyIndexed rt length seen ms)
  | [], _, _, _ => ⟨rfl, fun _ => .inl, rfl⟩
  | (k, g) :: ms, seen, hn, hf => by
    rw [remainIndexed, steadyIndexed]
    cases hindex : isIndex length k with
    | false =>
      have hms := whole_remainIndexed length ms seen (List.nodup_append.mp hn).2.1
        fun o ho => hf o (List.mem_append_right _ ho)
      simp only [Bool.not_false, Bool.true_or, if_true]
      exact ⟨by simp only [hms.copied, unshareMembers],
        fun o ho => (hms.marked o ho).imp_right (List.mem_append_right _), hms.steady⟩
    | true =>
      have hfirst := firstTime hn hf
      have hg := whole_remain g (g.mark seen) hfirst.nodup hfirst.fresh
      have hms := whole_remainIndexed length ms _ hfirst.rest_nodup (hfirst.rest_fresh _ hg.marked)
      simp only [hfirst.unseen, Bool.not_true, Bool.or_self, Bool.false_eq_true, if_false]
      exact ⟨by simp only [hg.copied, hms.copied, unshareMembers], hfirst.marked_rest hg.marked hms.marked,
        by simp only [hg.steady, hms.steady, Bool.and_self]⟩

end

mutual

theorem remaining_of_nodup : ∀ g : Graph, (objects g).Nodup → remaining rt g = unshare g ∧ kept rt g = true
  | .obj object ms, hn => by
    have hwhole := @whole_remain rt (.obj object ms) [] hn (by simp)
    rw [remaining, kept]
    split
    · obtain ⟨hms, hkept⟩ := remainingMembers_of_nodup ms (List.nodup_cons.mp hn).2
      exact ⟨congrArg Value.obj hms, hkept⟩
    · next htagged =>
      refine ⟨hwhole.copied, ?_⟩
      rw [hwhole.copied, hwhole.steady, unshare]
      simp [isTagged, htagged]
  | .arr object xs, hn => by
    have hwhole := @whole_remain rt (.arr object xs) [] hn (by simp)
    exact ⟨hwhole.copied, hwhole.steady⟩
  | .null, _ | .bool _, _ | .num _, _ | .str _, _ | .date _ _, _ | .regexp _ _, _ | .binary _ _, _ => ⟨rfl, rfl⟩

theorem remainingMembers_of_nodup : ∀ ms : List (Text × Graph), (objectsMembers ms).Nodup →
    remainingMembers rt ms = unshareMembers ms ∧ keptMembers rt ms = true
  | [], _ => ⟨rfl, rfl⟩
  | (k, g) :: ms, hn => by
    obtain ⟨hng, hnms, -⟩ := List.nodup_append.mp hn
    obtain ⟨hg, hkept⟩ := remaining_of_nodup g hng
    obtain ⟨hms, hkept'⟩ := remainingMembers_of_nodup ms hnms
    exact ⟨by rw [remainingMembers, unshareMembers, hg, hms], by rw [keptMembers, hkept, hkept', Bool.and_self]⟩

end

/-! ### The two texts -/

/-- **Sharing loses what is reached again**, and nothing else: the value that comes out of the text is the one that
comes out of the text of what is left, where nothing is taken for something else. Without sharing it is the one
that comes out of the text of the unshared copy. -/
theorem sharing_on_the_wire (rt : Runtime) (g : Graph) :
    (kept rt g = true → (ejsonStringify rt g).map (ejsonParse rt) =
      (Convert.ejsonStringify rt (remaining rt g)).map (ejsonParse rt)) ∧
    ((objects g).Nodup → (ejsonStringify rt g).map (ejsonParse rt) =
      (Convert.ejsonStringify rt (unshare g)).map (ejsonParse rt)) := by
  have hwire (h : kept rt g = true) : ejsonStringify rt g = Convert.ejsonStringify rt (remaining rt g) := by
    rw [ejsonStringify, Convert.ejsonStringify, toJSONValue_remaining g h]
  refine ⟨fun h => by rw [hwire h], fun hn => ?_⟩
  obtain ⟨hremaining, hkept⟩ := @remaining_of_nodup rt g hn
  rw [hwire hkept, hremaining]

/-- One `Date` stands at both timestamps. -/
def stamped : Graph := .obj 0 (withInsertTimestamps [] (.date 1 (some 0)))

example : remaining RoundTrip.plainRuntime stamped = .obj [(js "createdAt", .date (some 0))] := rfl

theorem stamped_loses_updatedAt : ¬(ejsonStringify RoundTrip.plainRuntime stamped).map (ejsonParse RoundTrip.plainRuntime) =
    (Convert.ejsonStringify RoundTrip.plainRuntime (unshare stamped)).map (ejsonParse RoundTrip.plainRuntime) := by
  decide +kernel

end

end TypeFerry.Ejson.Sharing
