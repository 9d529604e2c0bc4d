import TypeFerry.Ejson.Clone

/-! # `EJSON.equals`

The comparison of `equals.ts` on two trees that share no object, so that the
shortcut `a === b` fires on primitives only. Values of this model have no
methods: the branches for `equals` methods and custom types are not taken.

Dates, regular expressions and empty byte arrays have no own keys; compared
with one another, or with an empty object, they fall through to the comparison
of keys and come out equal. -/
namespace TypeFerry.Ejson.Equals
open TypeFerry.Lib.Numeral TypeFerry.Lib.JsonText TypeFerry.Ejson.Clone

/-- `a === b || areBothNaN(a, b)` on numbers. -/
def numEquals : Number → Number → Bool
  | .finite d, .finite e => d == e || (d.sig == 0 && e.sig == 0)
  | .nan, .nan => true
  | .infinity s, .infinity t => s == t
  | _, _ => false

/-- `areDatesEqual`: the time value of an invalid date is `NaN`. -/
def areDatesEqual : Option Int → Option Int → Bool
  | some s, some t => s == t
  | _, _ => false

/-- The own enumerable properties of an object that is no array. -/
def ownEntries : Value → List (Text × Value)
  | .obj ms => ms
  | .binary bytes => bytes.zipIdx.map fun p => (indexText p.2, .num (.finite (ofInt p.1.toNat)))
  | _ => []

/-- An object, not `null` and no array. -/
def isKeyed : Value → Bool
  | .obj _ | .date _ | .regexp _ | .binary _ => true
  | _ => false

/-- `compareKeysUnordered` and `compareKeysOrderSensitive` for the entries of a
byte array. -/
def compareBytes (keyOrderSensitive : Bool) (as bs : List (Text × Value)) : Bool :=
  let same : Value → Value → Bool
    | .num m, .num n => numEquals m n
    | _, _ => false
  if keyOrderSensitive then
    as.length == bs.length && (as.zip bs).all fun p => p.1.1 == p.2.1 && same p.1.2 p.2.2
  else as.length == bs.length && as.all fun m => ((getOwn m.1 bs).map (same m.2)).getD false

mutual

/-- `EJSON.equals(a, b, { keyOrderSensitive })`. -/
def equals (keyOrderSensitive : Bool) : Value → Value → Bool
  | .undefined, b => b.isUndefined
  | .null, .null => true
  | .bool a, .bool b => a == b
  | .num a, .num b => numEquals a b
  | .str a, .str b => a == b
  | .arr xs, .arr ys => areArraysEqual keyOrderSensitive xs ys
  | .obj ms, b => isKeyed b &&
      if keyOrderSensitive then compareKeysOrderSensitive keyOrderSensitive ms (ownEntries b)
      else ms.length == (ownEntries b).length &&
        compareKeysUnordered keyOrderSensitive ms (ownEntries b)
  | .date s, b => match b with
    | .date t => areDatesEqual s t
    | b => isKeyed b && (ownEntries b).isEmpty
  | .regexp _, b => isKeyed b && (ownEntries b).isEmpty
  | .binary x, b => match b with
    | .binary y => x == y
    | b => isKeyed b && compareBytes keyOrderSensitive (ownEntries (.binary x)) (ownEntries b)
  | _, _ => false
termination_by structural a => a

def areArraysEqual (keyOrderSensitive : Bool) : List Value → List Value → Bool
  | [], [] => true
  | x :: xs, y :: ys => equals keyOrderSensitive x y && areArraysEqual keyOrderSensitive xs ys
  | _, _ => false
termination_by structural a => a

def compareKeysOrderSensitive (keyOrderSensitive : Bool) :
    List (Text × Value) → List (Text × Value) → Bool
  | [], [] => true
  | (k, x) :: as, (k', y) :: bs => k == k' && equals keyOrderSensitive x y &&
      compareKeysOrderSensitive keyOrderSensitive as bs
  | _, _ => false
termination_by structural a => a

/-- Every key of the first object is an own key of the second, with an equal
value. -/
def compareKeysUnordered (keyOrderSensitive : Bool) :
    List (Text × Value) → List (Text × Value) → Bool
  | [], _ => true
  | (k, x) :: as, bs => (match getOwn k bs with
      | some y => equals keyOrderSensitive x y
      | none => false) && compareKeysUnordered keyOrderSensitive as bs
termination_by structural a => a

end

/-- Two objects that are equal have equal values under every key of the first. -/
theorem compareKeysUnordered_getOwn {o : Bool} {k : Text} {x : Value} :
    ∀ {as bs : List (Text × Value)}, compareKeysUnordered o as bs = true → getOwn k as = some x →
      ∃ y, getOwn k bs = some y ∧ equals o x y = true
  | [], _, _, h => by simp [getOwn] at h
  | (k', x') :: as, bs, hc, h => by
    simp only [compareKeysUnordered, Bool.and_eq_true] at hc
    simp only [getOwn, List.lookup_cons] at h
    cases hk : k == k' with
    | true =>
      rw [hk] at h
      cases h
      rw [← eq_of_beq hk] at hc
      cases hg : getOwn k bs with
      | none => rw [hg] at hc; simp at hc
      | some y => rw [hg] at hc; exact ⟨y, rfl, hc.1⟩
    | false =>
      rw [hk] at h
      exact compareKeysUnordered_getOwn hc.2 h

/-- **Objects without order.** Equality of two plain objects, key by key. -/
theorem equals_obj {as bs : List (Text × Value)} :
    equals false (.obj as) (.obj bs) = true ↔
      as.length = bs.length ∧ compareKeysUnordered false as bs = true := by
  simp [equals, isKeyed, ownEntries]

/-- Two dates and the empty object: equality is not transitive. -/
example : equals false (.date (some 1)) (.obj []) = true ∧
    equals false (.obj []) (.date (some 2)) = true ∧
    equals false (.date (some 1)) (.date (some 2)) = false := by decide

/-! ## Sameness of trees -/

mutual

/-- The two trees have the same shape and the same atoms. -/
def same : Value → Value → Bool
  | .undefined, .undefined => true
  | .null, .null => true
  | .bool a, .bool b => a == b
  | .num a, .num b => decide (a = b)
  | .str a, .str b => a == b
  | .date a, .date b => a == b
  | .regexp a, .regexp b => decide (a = b)
  | .binary a, .binary b => a == b
  | .arr xs, .arr ys => sameElems xs ys
  | .obj ms, .obj ns => sameMembers ms ns
  | _, _ => false

def sameElems : List Value → List Value → Bool
  | [], [] => true
  | x :: xs, y :: ys => same x y && sameElems xs ys
  | _, _ => false

def sameMembers : List (Text × Value) → List (Text × Value) → Bool
  | [], [] => true
  | (k, x) :: ms, (k', y) :: ns => k == k' && same x y && sameMembers ms ns
  | _, _ => false

end

mutual

theorem same_iff : ∀ a b : Value, same a b = true ↔ a = b
  | .arr xs, b => by cases b <;> simp [same, sameElems_iff xs]
  | .obj ms, b => by cases b <;> simp [same, sameMembers_iff ms]
  | .undefined, b | .null, b | .bool _, b | .num _, b | .str _, b | .date _, b | .regexp _, b
  | .binary _, b => by cases b <;> simp [same]

theorem sameElems_iff : ∀ xs ys : List Value, sameElems xs ys = true ↔ xs = ys
  | [], ys => by cases ys <;> simp [sameElems]
  | x :: xs, ys => by cases ys <;> simp [sameElems, same_iff x, sameElems_iff xs]

theorem sameMembers_iff : ∀ ms ns : List (Text × Value), sameMembers ms ns = true ↔ ms = ns
  | [], ns => by cases ns <;> simp [sameMembers]
  | (k, x) :: ms, ns => by
    cases ns with
    | nil => simp [sameMembers]
    | cons n ns =>
      obtain ⟨k', y⟩ := n
      simp [sameMembers, same_iff x, sameMembers_iff ms, and_assoc]

end

instance : DecidableEq Value := fun a b => decidable_of_iff _ (same_iff a b)

end TypeFerry.Ejson.Equals
