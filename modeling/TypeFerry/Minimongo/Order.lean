import TypeFerry.Ejson.Transparent
import TypeFerry.Lib.Comparison
import TypeFerry.Minimongo.Values

/-! # The order of values

`compareValues` with a collator. Where two values are not equal it says `-1` or `1`, and for some pairs `1` both
ways. On all others it gives the signs of one order (`orderAt`). -/
namespace TypeFerry.Minimongo.Order
open Std TypeFerry.Lib.Numeral TypeFerry.Lib.JsonText TypeFerry.Lib.Comparison TypeFerry.Ejson.Clone
open TypeFerry.Ejson.Equals TypeFerry.Ejson.Canonical TypeFerry.Ejson.Convert TypeFerry.Ejson.Transparent
open TypeFerry.Minimongo.Values hiding compareValues compareElems compareEntries

/-- `collator.compare` -/
abbrev Collator := Text → Text → ℤ

section
variable (collator : Option Collator)

/-- The comparison of two strings that are not equal. -/
def compareStrings (a b : Text) : ℤ :=
  match collator with
  | some compare => (compare a b).sign
  | none => signOf (textLt a b)

mutual

def compareValues : Value → Value → ℤ
  | .num a, .num b => if numEquals a b then 0 else signOf (numLt a b)
  | .str a, .str b => if a = b then 0 else compareStrings collator a b
  | .bool a, .bool b => if a = b then 0 else signOf (!a)
  | .date a, .date b => if areDatesEqual a b then 0 else match a, b with
    | some s, some t => signOf (s < t)
    | _, _ => 1
  | .regexp a, .regexp b => if a = b then 0 else signOf (textLt (regexpText a) (regexpText b))
  | .binary a, .binary b => if a = b then 0 else Values.compareBytes a b
  | .arr xs, .arr ys => if equalElems true xs ys then 0 else compareElems xs ys
  | .obj ms, .obj ns => if equalValues true (.obj ms) (.obj ns) then 0 else compareEntries ms ns
  | a, b => if typeOrder a = typeOrder b then 0 else signOf (typeOrder a < typeOrder b)

def compareElems : List Value → List Value → ℤ
  | x :: xs, y :: ys => if compareValues x y ≠ 0 then compareValues x y else compareElems xs ys
  | xs, ys => signOf (xs.length < ys.length)

def compareEntries : List (Text × Value) → List (Text × Value) → ℤ
  | (k, x) :: ms, (k', y) :: ns =>
    if k ≠ k' then signOf (textLt k k')
    else if compareValues x y ≠ 0 then compareValues x y else compareEntries ms ns
  | ms, ns => signOf (ms.length < ns.length)

end

/-- Equal, or strings between which the collator makes no difference. -/
def alike : Value → Value → Bool
  | .str a, .str b => a = b || collator.any fun compare => compare a b = 0
  | a, b => equalValues true a b

mutual

/-- The pairs that are unequal and have no order. -/
def clashes : Value → Value → Bool
  | .num a, .num b => (a = .nan) != (b = .nan)
  | .date a, .date b => a.isNone || b.isNone
  | .regexp a, .regexp b => a ≠ b && regexpText a = regexpText b
  | .arr xs, .arr ys => !equalElems true xs ys && clashElems xs ys
  | .obj ms, .obj ns => !equalValues true (.obj ms) (.obj ns) && clashEntries ms ns
  | _, _ => false

/-- The first elements that are not alike clash, or there are none. -/
def clashElems : List Value → List Value → Bool
  | x :: xs, y :: ys => if alike collator x y then clashElems xs ys else clashes x y
  | [], [] => true
  | _, _ => false

def clashEntries : List (Text × Value) → List (Text × Value) → Bool
  | (k, x) :: ms, (k', y) :: ns =>
    k = k' && if alike collator x y then clashEntries ms ns else clashes x y
  | [], [] => true
  | _, _ => false

end

/-! ## One order -/

/-- The numbers from `NaN` upwards, the finite ones with their value. -/
def numberRank : Number → ℤ
  | .nan => 0
  | .infinity true => 1
  | .finite _ => 2
  | .infinity false => 3

def numberValue : Number → ℚ
  | .finite d => toRat d
  | _ => 0

def numberOrder : Number → Number → Ordering := compareLex (compareOn numberRank) (compareOn numberValue)

def textOrder : Text → Text → Ordering :=
  match collator with
  | some compare => fun a b => Ord.compare (compare a b) 0
  | none => Ord.compare

def numOf : Value → Number
  | .num n => n
  | _ => .nan

def boolOf : Value → Bool
  | .bool b => b
  | _ => false

def timeOf : Value → ℤ
  | .date t => t.getD 0
  | _ => 0

def strOf : Value → Text
  | .str s => s
  | _ => []

def regexpOf : Value → Text
  | .regexp r => regexpText r
  | _ => []

def bytesOf : Value → List UInt8
  | .binary bytes => bytes
  | _ => []

def elemsOf : Value → List Value
  | .arr xs => xs
  | _ => []

def entriesOf : Value → List (Text × Value)
  | .obj ms => ms
  | _ => []

/-- By type first. Below the type at most one of the others tells two values apart. -/
def scalarOrder : Value → Value → Ordering :=
  compareLex (compareOn typeOrder) (compareLex (fun a b => numberOrder (numOf a) (numOf b))
    (compareLex (fun a b => textOrder collator (strOf a) (strOf b)) (compareLex (compareOn boolOf)
      (compareLex (compareOn timeOf) (compareLex (compareOn regexpOf) (compareOn bytesOf))))))

def entryOrder (order : Value → Value → Ordering) : Text × Value → Text × Value → Ordering :=
  compareLex (compareOn Prod.fst) fun m n => order m.2 n.2

/-- The order of values of depth less than `n`. -/
def orderAt : ℕ → Value → Value → Ordering
  | 0 => fun _ _ => .eq
  | n + 1 => compareLex (scalarOrder collator) (compareLex
      (fun a b => List.compareLex (orderAt n) (elemsOf a) (elemsOf b))
      (fun a b => List.compareLex (entryOrder (orderAt n)) (entriesOf a) (entriesOf b)))

/-- The collator compares strings by a total preorder. -/
structure Preorders (compare : Collator) : Prop where
  antisymm : ∀ s t, (compare s t).sign = -(compare t s).sign
  trans : ∀ s t u, compare s t ≤ 0 → compare t u ≤ 0 → compare s u ≤ 0

end

/-! ## It is an order -/

section
variable {collator : Option Collator} (hcollator : ∀ compare ∈ collator, Preorders compare)
include hcollator

theorem transCmp_textOrder : TransCmp (textOrder collator) := by
  cases collator with
  | none => exact inferInstanceAs (TransCmp (Ord.compare (α := Text)))
  | some compare =>
    have hcompare := hcollator compare rfl
    have hle (a b : Text) : (textOrder (some compare) a b).isLE = true ↔ compare a b ≤ 0 := by
      rw [textOrder, ← toInt_nonpos, toInt_compare_zero, Int.sign_nonpos_iff]
    refine { eq_swap := fun {a b} => toInt_injective ?_, isLE_trans := fun {a b c} hab hbc => ?_ }
    · rw [toInt_swap, textOrder, toInt_compare_zero, toInt_compare_zero, hcompare.antisymm a b]
    · rw [hle] at hab hbc ⊢
      exact hcompare.trans a b c hab hbc

theorem transCmp_scalarOrder : TransCmp (scalarOrder collator) := by
  have htext := transCmp_textOrder hcollator
  have hnumber : TransCmp numberOrder := inferInstanceAs (TransCmp (compareLex _ _))
  exact inferInstanceAs (TransCmp (compareLex _ _))

theorem transCmp_orderAt : ∀ n : ℕ, TransCmp (orderAt collator n)
  | 0 => { eq_swap := rfl, isLE_trans := fun _ _ => rfl }
  | n + 1 => by
    have hscalar := transCmp_scalarOrder hcollator
    have horder := transCmp_orderAt n
    have hentry : TransCmp (entryOrder (orderAt collator n)) := inferInstanceAs (TransCmp (compareLex _ _))
    exact inferInstanceAs (TransCmp (compareLex _ _))

end

/-! ## Scalars -/

theorem signOf_ne_zero (below : Bool) : signOf below ≠ 0 := by
  cases below <;> decide

/-- A significand without trailing zeros and its exponent are found in the number. -/
theorem sig_exp_inj {m n : ℕ} {x y : ℤ} (hm : m % 10 ≠ 0) (hn : n % 10 ≠ 0)
    (h : (m : ℚ) * 10 ^ x = n * 10 ^ y) : m = n ∧ x = y := by
  wlog hxy : x ≤ y generalizing m n x y
  · obtain ⟨hmn, hyx⟩ := this hn hm h.symm (by omega)
    exact ⟨hmn.symm, hyx.symm⟩
  · obtain ⟨k, rfl⟩ := Int.le.dest hxy
    have hten : (10 : ℚ) ^ x ≠ 0 := zpow_ne_zero _ (by norm_num)
    have hmn : m = n * 10 ^ k := by
      rw [zpow_add₀ (by norm_num), zpow_natCast, ← mul_assoc, mul_right_comm] at h
      exact_mod_cast mul_right_cancel₀ hten h
    cases k with
    | zero => simpa using hmn
    | succ k =>
      rw [pow_succ, ← mul_assoc] at hmn
      omega

theorem toRat_eq_zero {d : Decimal} : toRat d = 0 ↔ d.sig = 0 := by
  have hten : (10 : ℚ) ^ d.exp ≠ 0 := zpow_ne_zero _ (by norm_num)
  cases hneg : d.neg <;> simp [toRat, hneg, hten]

/-- Decimals that stand for one number differ in the sign of zero at most. -/
theorem toRat_eq_iff (d e : Decimal) : toRat d = toRat e ↔ numEquals (.finite d) (.finite e) = true := by
  simp only [numEquals, Bool.or_eq_true, beq_iff_eq, Bool.and_eq_true]
  constructor
  · intro h
    by_cases hd : d.sig = 0
    · exact .inr ⟨hd, toRat_eq_zero.mp (h ▸ toRat_eq_zero.mpr hd)⟩
    · have he : e.sig ≠ 0 := fun he => hd (toRat_eq_zero.mp (h.trans (toRat_eq_zero.mpr he)))
      have hd' := d.normal.resolve_left fun hz => hd hz.1
      have he' := e.normal.resolve_left fun hz => he hz.1
      have hpos (f : Decimal) (hf : f.sig ≠ 0) : (0 : ℚ) < f.sig * 10 ^ f.exp :=
        mul_pos (by exact_mod_cast Nat.pos_of_ne_zero hf) (zpow_pos (by norm_num) _)
      have hneg : d.neg = e.neg ∧ (d.sig : ℚ) * 10 ^ d.exp = e.sig * 10 ^ e.exp := by
        have hdpos := hpos d hd
        have hepos := hpos e he
        simp only [toRat, mul_assoc] at h
        cases hdn : d.neg <;> cases hen : e.neg <;> simp only [hdn, hen, if_true, if_false, Bool.false_eq_true] at h
        · exact ⟨rfl, by linarith⟩
        · linarith
        · linarith
        · exact ⟨rfl, by linarith⟩
      obtain ⟨hsig, hexp⟩ := sig_exp_inj hd' he' hneg.2
      left
      cases d
      cases e
      simp_all
  · rintro (rfl | ⟨hd, he⟩)
    · rfl
    · rw [toRat_eq_zero.mpr hd, toRat_eq_zero.mpr he]

theorem signOf_eq {below : Bool} {o : Ordering} (hne : o ≠ .eq) (h : below = true ↔ o = .lt) :
    signOf below = toInt o := by
  cases o with
  | lt => rw [h.mpr rfl]; rfl
  | eq => exact absurd rfl hne
  | gt => rw [Bool.eq_false_iff.mpr fun hb => Ordering.noConfusion (h.mp hb)]; rfl

theorem numbers_order {m n : Number} (h : (decide (m = .nan) != decide (n = .nan)) = false) :
    (if numEquals m n then 0 else signOf (numLt m n)) = toInt (numberOrder m n) := by
  cases m with
  | nan => cases n <;> first | rfl | cases h
  | infinity s =>
    cases n with
    | nan => cases h
    | finite e => cases s <;> rfl
    | infinity t => cases s <;> cases t <;> rfl
  | finite d =>
    cases n with
    | nan => cases h
    | infinity t => cases t <;> rfl
    | finite e =>
      have horder : numberOrder (.finite d) (.finite e) = compare (toRat d) (toRat e) := rfl
      rw [horder]
      split
      · next heq => rw [(toRat_eq_iff d e).mpr heq, compare_self, toInt]
      · next hne =>
        refine signOf_eq (fun heq => hne ((toRat_eq_iff d e).mp (Std.compare_eq_iff_eq.mp heq))) ?_
        rw [numLt, decide_eq_true_iff, compare_lt_iff_lt]

theorem signOf_textLt : ∀ {s t : Text}, s ≠ t → signOf (textLt s t) = toInt (compare s t)
  | [], [], h => absurd rfl h
  | [], _ :: _, _ | _ :: _, [], _ => rfl
  | a :: s, b :: t, h => by
    rw [List.compare_cons_cons]
    by_cases hab : a = b
    · subst hab
      have hst : s ≠ t := fun heq => h (heq ▸ rfl)
      have htail : textLt (a :: s) (a :: t) = textLt s t := by
        have hne : (a :: s != a :: t) = (s != t) := by rw [bne_iff_ne.mpr h, bne_iff_ne.mpr hst]
        rw [textLt, textLt, textLe, if_pos rfl, hne]
      rw [htail, compare_self, Ordering.eq_then, signOf_textLt hst]
    · have hnat : a.toNat ≠ b.toNat := fun heq => hab (UInt16.toNat_inj.mp heq)
      have hne : compare a b ≠ .eq := fun heq => hab (Std.compare_eq_iff_eq.mp heq)
      rw [then_eq_left hne]
      refine signOf_eq hne ?_
      rw [Std.compare_eq_lt, UInt16.lt_iff_toNat_lt, textLt, bne_iff_ne.mpr h, Bool.and_true, textLe, if_neg hab,
        decide_eq_true_iff]
      omega

theorem compareStrings_order {collator : Option Collator} (hcollator : ∀ compare ∈ collator, Preorders compare)
    (s t : Text) : (if s = t then 0 else compareStrings collator s t) = toInt (textOrder collator s t) := by
  cases collator with
  | none =>
    split
    · next heq => rw [heq, textOrder, compare_self, toInt]
    · next hne => exact signOf_textLt hne
  | some compare =>
    rw [textOrder, toInt_compare_zero]
    split
    · next heq =>
      subst heq
      have hself := (hcollator compare rfl).antisymm s s
      omega
    · rfl

theorem compareBytes_order (as bs : List UInt8) :
    (if as = bs then 0 else Values.compareBytes as bs) = toInt (compare as bs) := by
  induction as generalizing bs with
  | nil => cases bs <;> rfl
  | cons a as ih =>
    cases bs with
    | nil => rfl
    | cons b bs =>
      rw [List.compare_cons_cons, Values.compareBytes]
      by_cases hab : a = b
      · subst hab
        rw [if_pos rfl, compare_self, Ordering.eq_then, ← ih bs]
        simp
      · rw [if_neg hab, if_neg fun heq => hab (List.cons.inj heq).1]
        have hne : compare a b ≠ .eq := fun heq => hab (Std.compare_eq_iff_eq.mp heq)
        rw [then_eq_left hne]
        exact signOf_eq hne (by rw [Std.compare_eq_lt, decide_eq_true_iff])

/-! ## Values -/

mutual

/-- The keys of every object are distinct. -/
def DistinctKeys : Value → Prop
  | .arr xs => DistinctKeysElems xs
  | .obj ms => (ms.map Prod.fst).Nodup ∧ DistinctKeysEntries ms
  | _ => True

def DistinctKeysElems : List Value → Prop
  | [] => True
  | x :: xs => DistinctKeys x ∧ DistinctKeysElems xs

def DistinctKeysEntries : List (Text × Value) → Prop
  | [] => True
  | (_, x) :: ms => DistinctKeys x ∧ DistinctKeysEntries ms

end

theorem distinctKeysElems_iff {xs : List Value} : DistinctKeysElems xs ↔ ∀ x ∈ xs, DistinctKeys x := by
  induction xs with
  | nil => simp [DistinctKeysElems]
  | cons x xs ih => simp [DistinctKeysElems, ih]

theorem distinctKeysEntries_iff {ms : List (Text × Value)} : DistinctKeysEntries ms ↔ ∀ m ∈ ms, DistinctKeys m.2 := by
  induction ms with
  | nil => simp [DistinctKeysEntries]
  | cons m ms ih => simp [DistinctKeysEntries, ih]

theorem equalElems_iff {s : Bool} {xs ys : List Value} :
    equalElems s xs ys = true ↔ List.Forall₂ (fun x y => equalValues s x y = true) xs ys := by
  induction xs generalizing ys with
  | nil => cases ys <;> simp [equalElems]
  | cons x xs ih => cases ys <;> simp [equalElems, ih]

/-- Objects that are equal in the order of their keys are equal entry by entry. -/
theorem equalEntries_forall₂ {ms ns full : List (Text × Value)} (hkeys : ms.map Prod.fst = ns.map Prod.fst)
    (hfull : (full.map Prod.fst).Nodup) (hns : ns ⊆ full) :
    equalEntries true ms full = true ↔
      List.Forall₂ (fun m n => m.1 = n.1 ∧ equalValues true m.2 n.2 = true) ms ns := by
  induction ms generalizing ns with
  | nil =>
    cases ns with
    | nil => simp [equalEntries]
    | cons n ns => cases hkeys
  | cons m ms ih =>
    obtain ⟨k, x⟩ := m
    cases ns with
    | nil => cases hkeys
    | cons n ns =>
      obtain ⟨k', y⟩ := n
      obtain ⟨hk, htail⟩ := List.cons.inj hkeys
      obtain rfl : k = k' := hk
      have hget : getOwn k full = some y := Ejson.Encode.getOwn_of_mem hfull (hns (.head _))
      rw [equalEntries, hget, Bool.and_eq_true, ih htail fun n hn => hns (.tail _ hn), List.forall₂_cons]
      simp

theorem equalValues_obj {ms ns : List (Text × Value)} (hns : (ns.map Prod.fst).Nodup) :
    equalValues true (.obj ms) (.obj ns) = true ↔
      List.Forall₂ (fun m n => m.1 = n.1 ∧ equalValues true m.2 n.2 = true) ms ns := by
  rw [equalValues]
  simp only [Bool.not_true, Bool.false_or, Bool.and_eq_true, beq_iff_eq]
  constructor
  · rintro ⟨⟨-, hkeys⟩, h⟩
    exact (equalEntries_forall₂ hkeys hns (List.Subset.refl _)).mp h
  · intro h
    have hkeys : ms.map Prod.fst = ns.map Prod.fst := by
      induction h with
      | nil => rfl
      | cons hmn _ ih =>
        rw [List.map_cons, List.map_cons, hmn.1, ih (List.nodup_cons.mp hns).2]
    exact ⟨⟨h.length_eq, hkeys⟩, (equalEntries_forall₂ hkeys hns (List.Subset.refl _)).mpr h⟩

theorem numEquals_symm {m n : Number} (h : numEquals m n = true) : numEquals n m = true := by
  cases m with
  | finite d =>
    cases n with
    | finite e =>
      rw [← toRat_eq_iff] at h ⊢
      exact h.symm
    | _ => cases h
  | _ => cases n <;> simp_all [numEquals]

mutual

theorem equalValues_symm : ∀ {a b : Value}, DistinctKeys a → DistinctKeys b → equalValues true a b = true →
    equalValues true b a = true
  | .arr xs, b, ha, hb, h => by
    cases b with
    | arr ys =>
      rw [equalValues] at h ⊢
      exact equalElems_symm ha hb h
    | _ => cases h
  | .obj ms, b, ha, hb, h => by
    cases b with
    | obj ns =>
      rw [equalValues_obj hb.1] at h
      rw [equalValues_obj ha.1]
      exact equalEntries_symm ha.2 hb.2 h
    | _ => cases h
  | .undefined, b, _, _, h | .null, b, _, _, h => by cases b <;> first | rfl | cases h
  | .num m, b, _, _, h => by
    cases b with
    | num n => exact numEquals_symm h
    | _ => cases h
  | .date s, b, _, _, h => by
    cases b with
    | date t => cases s <;> cases t <;> simp_all [equalValues, areDatesEqual]
    | _ => cases h
  | .bool _, b, _, _, h | .str _, b, _, _, h | .binary _, b, _, _, h | .regexp _, b, _, _, h => by
    cases b <;> simp_all [equalValues]

theorem equalElems_symm : ∀ {xs ys : List Value}, DistinctKeysElems xs → DistinctKeysElems ys →
    equalElems true xs ys = true → equalElems true ys xs = true
  | [], [], _, _, _ => rfl
  | [], _ :: _, _, _, h | _ :: _, [], _, _, h => by cases h
  | x :: xs, y :: ys, hxs, hys, h => by
    rw [equalElems, Bool.and_eq_true] at h ⊢
    exact ⟨equalValues_symm hxs.1 hys.1 h.1, equalElems_symm hxs.2 hys.2 h.2⟩

theorem equalEntries_symm : ∀ {ms ns : List (Text × Value)}, DistinctKeysEntries ms → DistinctKeysEntries ns →
    List.Forall₂ (fun m n => m.1 = n.1 ∧ equalValues true m.2 n.2 = true) ms ns →
    List.Forall₂ (fun m n => m.1 = n.1 ∧ equalValues true m.2 n.2 = true) ns ms
  | [], [], _, _, _ => .nil
  | [], _ :: _, _, _, h | _ :: _, [], _, _, h => by cases h
  | (_, x) :: ms, (_, y) :: ns, hms, hns, h => by
    obtain ⟨⟨hk, hxy⟩, htail⟩ := List.forall₂_cons.mp h
    exact .cons ⟨hk.symm, equalValues_symm hms.1 hns.1 hxy⟩ (equalEntries_symm hms.2 hns.2 htail)

end

/-! ## Alike -/

section
variable {collator : Option Collator}

theorem alike_of_equalValues {a b : Value} (h : equalValues true a b = true) : alike collator a b = true := by
  cases a with
  | str s => cases b <;> simp_all [alike, equalValues]
  | _ => exact h

theorem compareElems_ne_zero : ∀ xs ys : List Value, compareElems collator xs ys ≠ 0
  | x :: xs, y :: ys => by
    rw [compareElems]
    split
    · next h => exact h
    · exact compareElems_ne_zero xs ys
  | [], _ | _ :: _, [] => signOf_ne_zero _

theorem compareEntries_ne_zero : ∀ ms ns : List (Text × Value), compareEntries collator ms ns ≠ 0
  | (k, x) :: ms, (k', y) :: ns => by
    rw [compareEntries]
    split
    · exact signOf_ne_zero _
    · split
      · next h => exact h
      · exact compareEntries_ne_zero ms ns
  | [], _ | _ :: _, [] => signOf_ne_zero _

theorem compareStrings_eq_zero {s t : Text} :
    compareStrings collator s t = 0 ↔ (collator.any fun compare => compare s t = 0) = true := by
  cases collator with
  | none => simp [compareStrings, signOf_ne_zero]
  | some compare => simp [compareStrings]

/-- Values that are alike are the ones between which the comparison makes no difference. -/
theorem compareValues_eq_zero {a b : Value} : compareValues collator a b = 0 ↔ alike collator a b = true := by
  cases a with
  | str s =>
    cases b with
    | str t =>
      rw [compareValues, alike, Bool.or_eq_true, decide_eq_true_iff, ← compareStrings_eq_zero]
      split <;> simp_all
    | _ => simp [compareValues, alike, typeOrder, signOf_ne_zero, equalValues]
  | arr xs =>
    cases b with
    | arr ys => simp [compareValues, alike, equalValues, compareElems_ne_zero]
    | _ => simp [compareValues, alike, typeOrder, signOf_ne_zero, equalValues]
  | obj ms =>
    cases b with
    | obj ns => simp only [compareValues, alike, ite_eq_left_iff, compareEntries_ne_zero, imp_false, not_not]
    | _ => simp [compareValues, alike, typeOrder, signOf_ne_zero, equalValues]
  | binary as =>
    cases b with
    | binary bs => simp [compareValues, compareBytes_order, alike, equalValues]
    | _ => simp [compareValues, alike, typeOrder, signOf_ne_zero, equalValues]
  | date s =>
    cases b with
    | date t => cases s <;> cases t <;> simp [compareValues, alike, areDatesEqual, signOf_ne_zero, equalValues]
    | _ => simp [compareValues, alike, typeOrder, signOf_ne_zero, equalValues]
  | _ => cases b <;> simp [compareValues, alike, typeOrder, signOf_ne_zero, equalValues]

theorem alike_symm (hcollator : ∀ compare ∈ collator, Preorders compare) {a b : Value} (ha : DistinctKeys a)
    (hb : DistinctKeys b) (h : alike collator a b = true) : alike collator b a = true := by
  cases a with
  | str s =>
    cases b with
    | str t =>
      rw [← compareValues_eq_zero, compareValues, compareStrings_order hcollator, toInt_eq_zero] at h ⊢
      have htext := transCmp_textOrder hcollator
      exact OrientedCmp.eq_symm h
    | _ => cases h
  | _ => exact alike_of_equalValues (equalValues_symm ha hb h)

end

/-! ## Clashes -/

section
variable {collator : Option Collator}

theorem textLt_self (s : Text) : textLt s s = false := by
  simp [textLt]

mutual

/-- For values that clash the comparison says `1`. -/
theorem compareValues_of_clashes : ∀ {a b : Value}, clashes collator a b = true → compareValues collator a b = 1
  | .num m, b, h => by
    cases b with
    | num n => cases m <;> cases n <;> simp_all [clashes, compareValues, numEquals, numLt, signOf]
    | _ => cases h
  | .date s, b, h => by
    cases b with
    | date t => cases s <;> cases t <;> first | rfl | cases h
    | _ => cases h
  | .regexp r, b, h => by
    cases b with
    | regexp r' =>
      rw [clashes, Bool.and_eq_true, decide_eq_true_iff, decide_eq_true_iff] at h
      rw [compareValues, if_neg h.1, h.2, textLt_self, signOf]
      rfl
    | _ => cases h
  | .arr xs, b, h => by
    cases b with
    | arr ys =>
      rw [clashes, Bool.and_eq_true, Bool.not_eq_true'] at h
      rw [compareValues, h.1, if_neg Bool.false_ne_true, compareElems_of_clashElems h.2]
    | _ => cases h
  | .obj ms, b, h => by
    cases b with
    | obj ns =>
      rw [clashes, Bool.and_eq_true, Bool.not_eq_true'] at h
      rw [compareValues, h.1, if_neg Bool.false_ne_true, compareEntries_of_clashEntries h.2]
    | _ => cases h
  | .undefined, b, h | .null, b, h | .bool _, b, h | .str _, b, h | .binary _, b, h => by cases b <;> cases h

theorem compareElems_of_clashElems : ∀ {xs ys : List Value}, clashElems collator xs ys = true →
    compareElems collator xs ys = 1
  | [], [], _ => rfl
  | [], _ :: _, h | _ :: _, [], h => by cases h
  | x :: xs, y :: ys, h => by
    rw [clashElems] at h
    rw [compareElems]
    by_cases halike : alike collator x y = true
    · rw [if_pos halike] at h
      rw [compareValues_eq_zero.mpr halike, if_neg fun hne => hne rfl, compareElems_of_clashElems h]
    · rw [if_neg halike] at h
      rw [compareValues_of_clashes h, if_pos one_ne_zero]

theorem compareEntries_of_clashEntries : ∀ {ms ns : List (Text × Value)}, clashEntries collator ms ns = true →
    compareEntries collator ms ns = 1
  | [], [], _ => rfl
  | [], _ :: _, h | _ :: _, [], h => by cases h
  | (k, x) :: ms, (k', y) :: ns, h => by
    rw [clashEntries, Bool.and_eq_true, decide_eq_true_iff] at h
    rw [compareEntries, if_neg fun hne => hne h.1]
    by_cases halike : alike collator x y = true
    · rw [if_pos halike] at h
      rw [compareValues_eq_zero.mpr halike, if_neg fun hne => hne rfl, compareEntries_of_clashEntries h.2]
    · rw [if_neg halike] at h
      rw [compareValues_of_clashes h.2, if_pos one_ne_zero]

end

mutual

theorem clashes_symm (hcollator : ∀ compare ∈ collator, Preorders compare) : ∀ {a b : Value}, DistinctKeys a →
    DistinctKeys b → clashes collator a b = true → clashes collator b a = true
  | .num m, b, _, _, h => by
    cases b with
    | num n => simpa only [clashes, bne_comm] using h
    | _ => cases h
  | .date s, b, _, _, h => by
    cases b with
    | date t => simpa only [clashes, Bool.or_comm] using h
    | _ => cases h
  | .regexp r, b, _, _, h => by
    cases b with
    | regexp r' => simpa only [clashes, ne_comm, eq_comm] using h
    | _ => cases h
  | .arr xs, b, ha, hb, h => by
    cases b with
    | arr ys =>
      rw [clashes, Bool.and_eq_true, Bool.not_eq_true'] at h ⊢
      exact ⟨Bool.eq_false_iff.mpr fun heq => Bool.eq_false_iff.mp h.1 (equalElems_symm hb ha heq),
        clashElems_symm hcollator ha hb h.2⟩
    | _ => cases h
  | .obj ms, b, ha, hb, h => by
    cases b with
    | obj ns =>
      rw [clashes, Bool.and_eq_true, Bool.not_eq_true'] at h ⊢
      exact ⟨Bool.eq_false_iff.mpr fun heq => Bool.eq_false_iff.mp h.1 (equalValues_symm hb ha heq),
        clashEntries_symm hcollator ha.2 hb.2 h.2⟩
    | _ => cases h
  | .undefined, b, _, _, h | .null, b, _, _, h | .bool _, b, _, _, h | .str _, b, _, _, h
  | .binary _, b, _, _, h => by cases b <;> cases h

theorem clashElems_symm (hcollator : ∀ compare ∈ collator, Preorders compare) : ∀ {xs ys : List Value},
    DistinctKeysElems xs → DistinctKeysElems ys → clashElems collator xs ys = true → clashElems collator ys xs = true
  | [], [], _, _, _ => rfl
  | [], _ :: _, _, _, h | _ :: _, [], _, _, h => by cases h
  | x :: xs, y :: ys, hxs, hys, h => by
    rw [clashElems] at h ⊢
    by_cases halike : alike collator x y = true
    · rw [if_pos halike] at h
      rw [if_pos (alike_symm hcollator hxs.1 hys.1 halike), clashElems_symm hcollator hxs.2 hys.2 h]
    · rw [if_neg halike] at h
      rw [if_neg fun hyx => halike (alike_symm hcollator hys.1 hxs.1 hyx), clashes_symm hcollator hxs.1 hys.1 h]

theorem clashEntries_symm (hcollator : ∀ compare ∈ collator, Preorders compare) : ∀ {ms ns : List (Text × Value)},
    DistinctKeysEntries ms → DistinctKeysEntries ns → clashEntries collator ms ns = true →
    clashEntries collator ns ms = true
  | [], [], _, _, _ => rfl
  | [], _ :: _, _, _, h | _ :: _, [], _, _, h => by cases h
  | (k, x) :: ms, (k', y) :: ns, hms, hns, h => by
    rw [clashEntries, Bool.and_eq_true, decide_eq_true_iff] at h ⊢
    refine ⟨h.1.symm, ?_⟩
    by_cases halike : alike collator x y = true
    · rw [if_pos halike] at h
      rw [if_pos (alike_symm hcollator hms.1 hns.1 halike), clashEntries_symm hcollator hms.2 hns.2 h.2]
    · rw [if_neg halike] at h
      rw [if_neg fun hyx => halike (alike_symm hcollator hns.1 hms.1 hyx), clashes_symm hcollator hms.1 hns.1 h.2]

end

end

/-! ## Where values do not clash -/

section
variable {collator : Option Collator} (hcollator : ∀ compare ∈ collator, Preorders compare)

theorem not_clashes_of_alike {a b : Value} (h : alike collator a b = true) : clashes collator a b = false := by
  rw [Bool.eq_false_iff]
  intro hclash
  have hone := compareValues_of_clashes hclash
  rw [compareValues_eq_zero.mpr h] at hone
  cases hone

theorem orderAt_of_types {a b : Value} (n : ℕ) (h : typeOrder a ≠ typeOrder b) :
    compareValues collator a b = toInt (orderAt collator (n + 1) a b) := by
  have hcompare : compareValues collator a b = signOf (typeOrder a < typeOrder b) := by
    cases a <;> cases b <;> first | rfl | exact absurd rfl h
  have hne : compare (typeOrder a) (typeOrder b) ≠ .eq := fun heq => h (Std.compare_eq_iff_eq.mp heq)
  have horder : orderAt collator (n + 1) a b = compare (typeOrder a) (typeOrder b) := by
    rw [orderAt, compareLex, scalarOrder, compareLex, compareOn, then_eq_left hne, then_eq_left hne]
  rw [hcompare, horder]
  exact signOf_eq hne (by rw [decide_eq_true_iff, compare_lt_iff_lt])

/-- One step of a comparison: two values decide, unless they are alike. -/
theorem compareStep_order {n : ℕ} {x y : Value} {rest : ℤ} {order : Ordering}
    (hxy : clashes collator x y = false → compareValues collator x y = toInt (orderAt collator n x y))
    (hclash : alike collator x y ≠ true → clashes collator x y = false) (hrest : alike collator x y = true → rest = toInt order) :
    (if compareValues collator x y ≠ 0 then compareValues collator x y else rest) =
      toInt ((orderAt collator n x y).then order) := by
  by_cases halike : alike collator x y = true
  · have hzero := compareValues_eq_zero.mpr halike
    rw [hxy (not_clashes_of_alike halike), toInt_eq_zero] at hzero
    rw [compareValues_eq_zero.mpr halike, if_neg fun hne => hne rfl, hzero, Ordering.eq_then]
    exact hrest halike
  · have hne : compareValues collator x y ≠ 0 := fun hzero => halike (compareValues_eq_zero.mp hzero)
    have hx := hxy (hclash halike)
    rw [if_pos hne, hx]
    rw [hx, ne_eq, toInt_eq_zero] at hne
    rw [then_eq_left hne]

theorem compareElems_order {n : ℕ} : ∀ {xs ys : List Value},
    (∀ x ∈ xs, ∀ y ∈ ys, clashes collator x y = false → compareValues collator x y = toInt (orderAt collator n x y)) →
    clashElems collator xs ys = false →
    compareElems collator xs ys = toInt (List.compareLex (orderAt collator n) xs ys)
  | [], [], _, h => by cases h
  | [], _ :: _, _, _ | _ :: _, [], _, _ => rfl
  | x :: xs, y :: ys, horder, h => by
    rw [clashElems] at h
    rw [compareElems, List.compareLex_cons_cons]
    refine compareStep_order (horder x (.head _) y (.head _)) (fun halike => ?_) fun halike => ?_
    · rwa [if_neg halike] at h
    · rw [if_pos halike] at h
      exact compareElems_order (fun x hx y hy => horder x (.tail _ hx) y (.tail _ hy)) h

theorem compareEntries_order {n : ℕ} : ∀ {ms ns : List (Text × Value)},
    (∀ m ∈ ms, ∀ m' ∈ ns, clashes collator m.2 m'.2 = false →
      compareValues collator m.2 m'.2 = toInt (orderAt collator n m.2 m'.2)) →
    clashEntries collator ms ns = false →
    compareEntries collator ms ns = toInt (List.compareLex (entryOrder (orderAt collator n)) ms ns)
  | [], [], _, h => by cases h
  | [], _ :: _, _, _ | _ :: _, [], _, _ => rfl
  | (k, x) :: ms, (k', y) :: ns, horder, h => by
    rw [compareEntries, List.compareLex_cons_cons, entryOrder, compareLex, compareOn]
    by_cases hk : k = k'
    · subst hk
      rw [clashEntries, decide_eq_true rfl, Bool.true_and] at h
      rw [if_neg fun hne => hne rfl, compare_self, Ordering.eq_then]
      refine compareStep_order (horder (k, x) (.head _) (k, y) (.head _)) (fun halike => ?_) fun halike => ?_
      · rwa [if_neg halike] at h
      · rw [if_pos halike] at h
        exact compareEntries_order (fun m hm m' hm' => horder m (.tail _ hm) m' (.tail _ hm')) h
    · have hne : compare k k' ≠ .eq := fun heq => hk (Std.compare_eq_iff_eq.mp heq)
      rw [if_pos hk, signOf_textLt hk, then_eq_left hne, then_eq_left hne]

/-- On values of one type that have no parts. -/
theorem orderAt_scalar (n : ℕ) {a b : Value} (ha : elemsOf a = [] ∧ entriesOf a = []) (hb : elemsOf b = [] ∧ entriesOf b = [])
    (h : typeOrder a = typeOrder b) : orderAt collator (n + 1) a b =
      (numberOrder (numOf a) (numOf b)).then ((textOrder collator (strOf a) (strOf b)).then
        ((compare (boolOf a) (boolOf b)).then ((compare (timeOf a) (timeOf b)).then
          ((compare (regexpOf a) (regexpOf b)).then (compare (bytesOf a) (bytesOf b)))))) := by
  simp only [orderAt, compareLex, scalarOrder, compareOn, ha, hb, h, compare_self, Ordering.eq_then]
  exact Ordering.then_eq

include hcollator

theorem textOrder_self (s : Text) : textOrder collator s s = .eq := by
  have htext := transCmp_textOrder hcollator
  exact ReflCmp.compare_self

theorem scalarOrder_self (a : Value) : scalarOrder collator a a = .eq := by
  have hscalar := transCmp_scalarOrder hcollator
  exact ReflCmp.compare_self

theorem orderAt_arr (n : ℕ) (xs ys : List Value) :
    orderAt collator (n + 1) (.arr xs) (.arr ys) = List.compareLex (orderAt collator n) xs ys := by
  have heq : scalarOrder collator (.arr xs) (.arr ys) = .eq := scalarOrder_self hcollator (.arr [])
  rw [orderAt, compareLex, heq, Ordering.eq_then, compareLex]
  exact Ordering.then_eq

theorem orderAt_obj (n : ℕ) (ms ns : List (Text × Value)) :
    orderAt collator (n + 1) (.obj ms) (.obj ns) = List.compareLex (entryOrder (orderAt collator n)) ms ns := by
  have heq : scalarOrder collator (.obj ms) (.obj ns) = .eq := scalarOrder_self hcollator (.obj [])
  rw [orderAt, compareLex, heq, Ordering.eq_then]
  rfl

/-- The dates, the regular expressions, the bytes and all other values without parts. -/
theorem scalars_order (n : ℕ) {a b : Value} (ha : ¬ isArray a ∧ ¬ isPlainObject a)
    (htype : typeOrder a = typeOrder b) (h : clashes collator a b = false) :
    compareValues collator a b = toInt (orderAt collator (n + 1) a b) := by
  have hnil := textOrder_self hcollator []
  have hnum : numberOrder .nan .nan = .eq := rfl
  cases a with
  | num m =>
    cases b with
    | num n' =>
      rw [orderAt_scalar n ⟨rfl, rfl⟩ ⟨rfl, rfl⟩ htype]
      simp only [strOf, hnil, boolOf, timeOf, regexpOf, bytesOf, compare_self, Ordering.then_eq]
      exact numbers_order h
    | _ => simp [typeOrder] at htype
  | str s =>
    cases b with
    | str t =>
      rw [orderAt_scalar n ⟨rfl, rfl⟩ ⟨rfl, rfl⟩ htype]
      simp only [numOf, hnum, boolOf, timeOf, regexpOf, bytesOf, compare_self, Ordering.then_eq, Ordering.eq_then]
      exact compareStrings_order hcollator s t
    | _ => simp [typeOrder] at htype
  | bool p =>
    cases b with
    | bool q =>
      rw [orderAt_scalar n ⟨rfl, rfl⟩ ⟨rfl, rfl⟩ htype]
      simp only [strOf, hnil, numOf, hnum, timeOf, regexpOf, bytesOf, compare_self, Ordering.then_eq, Ordering.eq_then]
      cases p <;> cases q <;> rfl
    | _ => simp [typeOrder] at htype
  | date s =>
    cases b with
    | date t =>
      rw [orderAt_scalar n ⟨rfl, rfl⟩ ⟨rfl, rfl⟩ htype]
      simp only [strOf, hnil, numOf, hnum, boolOf, regexpOf, bytesOf, compare_self, Ordering.then_eq, Ordering.eq_then]
      rw [clashes, Bool.or_eq_false_iff] at h
      obtain ⟨s, rfl⟩ := Option.isSome_iff_exists.mp (Option.isNone_eq_false_iff.mp h.1)
      obtain ⟨t, rfl⟩ := Option.isSome_iff_exists.mp (Option.isNone_eq_false_iff.mp h.2)
      rw [compareValues, areDatesEqual, timeOf, timeOf, Option.getD_some, Option.getD_some]
      by_cases heq : s = t
      · rw [heq, compare_self, beq_self_eq_true, if_pos rfl, toInt]
      · rw [beq_false_of_ne heq, if_neg Bool.false_ne_true]
        refine signOf_eq (fun hst => heq (Std.compare_eq_iff_eq.mp hst)) ?_
        rw [decide_eq_true_iff, compare_lt_iff_lt]
    | _ => simp [typeOrder] at htype
  | binary as =>
    cases b with
    | binary bs =>
      rw [orderAt_scalar n ⟨rfl, rfl⟩ ⟨rfl, rfl⟩ htype]
      simp only [strOf, hnil, numOf, hnum, boolOf, timeOf, regexpOf, compare_self, Ordering.eq_then]
      exact compareBytes_order as bs
    | _ => simp [typeOrder] at htype
  | regexp r =>
    cases b with
    | regexp r' =>
      rw [orderAt_scalar n ⟨rfl, rfl⟩ ⟨rfl, rfl⟩ htype]
      simp only [strOf, hnil, numOf, hnum, boolOf, timeOf, bytesOf, compare_self, Ordering.then_eq, Ordering.eq_then]
      rw [compareValues, regexpOf, regexpOf]
      by_cases heq : r = r'
      · rw [if_pos heq, heq, compare_self, toInt]
      · rw [if_neg heq]
        rw [clashes, decide_eq_true heq, Bool.true_and, decide_eq_false_iff_not] at h
        exact signOf_textLt h
    | _ => simp [typeOrder] at htype
  | undefined =>
    cases b with
    | undefined =>
      rw [orderAt_scalar n ⟨rfl, rfl⟩ ⟨rfl, rfl⟩ htype]
      simp only [strOf, hnil, numOf, hnum, boolOf, timeOf, regexpOf, bytesOf, compare_self, Ordering.eq_then]
      rfl
    | _ => simp [typeOrder] at htype
  | null =>
    cases b with
    | null =>
      rw [orderAt_scalar n ⟨rfl, rfl⟩ ⟨rfl, rfl⟩ htype]
      simp only [strOf, hnil, numOf, hnum, boolOf, timeOf, regexpOf, bytesOf, compare_self, Ordering.eq_then]
      rfl
    | _ => simp [typeOrder] at htype
  | arr xs => exact absurd rfl ha.1
  | obj ms => exact absurd rfl ha.2

/-- Where the comparison can be meant, it says what the order says. -/
theorem compareValues_order : ∀ {n : ℕ} {a b : Value}, depth a < n → depth b < n → DistinctKeys a →
    DistinctKeys b → clashes collator a b = false → compareValues collator a b = toInt (orderAt collator n a b)
  | 0, _, _, hn, _, _, _, _ => absurd hn (Nat.not_lt_zero _)
  | n + 1, a, b, hna, hnb, ha, hb, h => by
    by_cases htype : typeOrder a = typeOrder b
    swap
    · exact orderAt_of_types n htype
    by_cases harr : isArray a = true
    · cases a with
      | arr xs =>
        cases b with
        | arr ys =>
          rw [depth] at hna hnb
          have hlink : ∀ x ∈ xs, ∀ y ∈ ys, clashes collator x y = false →
              compareValues collator x y = toInt (orderAt collator n x y) := by
            intro x hx y hy hxy
            have hdx := depthElems_le.mp le_rfl x hx
            have hdy := depthElems_le.mp le_rfl y hy
            exact compareValues_order (by omega) (by omega) (distinctKeysElems_iff.mp ha x hx)
              (distinctKeysElems_iff.mp hb y hy) hxy
          rw [compareValues, orderAt_arr hcollator]
          split
          · next heq =>
            rw [eq_comm, toInt_eq_zero]
            refine compareLex_eq_of_forall₂ (equalElems_iff.mp heq) fun x hx y hy hxy => ?_
            have halike : alike collator x y = true := alike_of_equalValues hxy
            rw [← toInt_eq_zero, ← hlink x hx y hy (not_clashes_of_alike halike), compareValues_eq_zero.mpr halike]
          · next hne =>
            rw [clashes, Bool.eq_false_iff.mpr hne, Bool.not_false, Bool.true_and] at h
            exact compareElems_order hlink h
        | _ => simp [typeOrder] at htype
      | _ => cases harr
    by_cases hobj : isPlainObject a = true
    · cases a with
      | obj ms =>
        cases b with
        | obj ns =>
          rw [depth] at hna hnb
          have hlink : ∀ m ∈ ms, ∀ m' ∈ ns, clashes collator m.2 m'.2 = false →
              compareValues collator m.2 m'.2 = toInt (orderAt collator n m.2 m'.2) := by
            intro m hm m' hm' hmm
            have hdm := depthMembers_le.mp le_rfl m hm
            have hdm' := depthMembers_le.mp le_rfl m' hm'
            exact compareValues_order (by omega) (by omega) (distinctKeysEntries_iff.mp ha.2 m hm)
              (distinctKeysEntries_iff.mp hb.2 m' hm') hmm
          rw [compareValues, orderAt_obj hcollator]
          split
          · next heq =>
            rw [eq_comm, toInt_eq_zero]
            refine compareLex_eq_of_forall₂ ((equalValues_obj hb.1).mp heq) fun m hm m' hm' hmm => ?_
            have halike : alike collator m.2 m'.2 = true := alike_of_equalValues hmm.2
            have hzero := hlink m hm m' hm' (not_clashes_of_alike halike)
            rw [compareValues_eq_zero.mpr halike, eq_comm, toInt_eq_zero] at hzero
            rw [entryOrder, compareLex, compareOn, hmm.1, compare_self, Ordering.eq_then, hzero]
          · next hne =>
            rw [clashes, Bool.eq_false_iff.mpr hne, Bool.not_false, Bool.true_and] at h
            exact compareEntries_order hlink h
        | _ => simp [typeOrder] at htype
      | _ => cases hobj
    exact scalars_order hcollator n ⟨harr, hobj⟩ htype h

/-- The comparison is an order on the sets in which nothing clashes. -/
theorem compareValues_isOrder_iff (S : Set Value) (hkeys : ∀ v ∈ S, DistinctKeys v) :
    IsOrder (compareValues collator) S ↔ ∀ a ∈ S, ∀ b ∈ S, clashes collator a b = false := by
  constructor
  · intro horder a ha b hb
    rw [Bool.eq_false_iff]
    intro hclash
    have hab := compareValues_of_clashes hclash
    have hba := compareValues_of_clashes (clashes_symm hcollator (hkeys a ha) (hkeys b hb) hclash)
    have hswap := horder.1 a ha b hb
    rw [hab, hba] at hswap
    cases hswap
  · intro hclash
    refine isOrder_of_transCmp fun a ha b hb c hc => ?_
    refine ⟨orderAt collator (depth a + depth b + depth c + 1), transCmp_orderAt hcollator _, fun x y hx hy => ?_⟩
    have hmem : ∀ z, z = a ∨ z = b ∨ z = c → z ∈ S ∧ depth z < depth a + depth b + depth c + 1 := by
      rintro z (rfl | rfl | rfl)
      · exact ⟨ha, by omega⟩
      · exact ⟨hb, by omega⟩
      · exact ⟨hc, by omega⟩
    obtain ⟨hxS, hdx⟩ := hmem x hx
    obtain ⟨hyS, hdy⟩ := hmem y hy
    exact compareValues_order hcollator hdx hdy (hkeys x hxS) (hkeys y hyS) (hclash x hxS y hyS)

end

/-- A collator that only looks at the lengths. -/
def byLength : Collator := fun s t => s.length - t.length

theorem preorders_byLength : Preorders byLength where
  antisymm s t := by rw [← Int.sign_neg, byLength, byLength, neg_sub]
  trans s t u hst htu := by
    rw [byLength] at hst htu ⊢
    omega

theorem compareValues_isOrder_byLength :
    IsOrder (compareValues (some byLength)) {.str (js "a"), .str (js "b"), .num .nan} ∧
      ¬ IsOrder (compareValues (some byLength)) {.arr [.str (js "a")], .arr [.str (js "b")]} := by
  have hcollator : ∀ compare ∈ some byLength, Preorders compare := by
    rintro _ ⟨⟩
    exact preorders_byLength
  constructor
  · refine (compareValues_isOrder_iff hcollator _ ?_).mpr ?_
    · rintro v (rfl | rfl | rfl) <;> trivial
    · rintro a (rfl | rfl | rfl) b (rfl | rfl | rfl) <;> decide
  · rw [compareValues_isOrder_iff hcollator _ (by rintro v (rfl | rfl) <;> exact ⟨trivial, trivial⟩)]
    intro h
    have hclash := h _ (.inl rfl) _ (.inr rfl)
    revert hclash
    decide

theorem nan_not_antisymm :
    compareValues none (.num .nan) (.num (.finite (ofInt 5))) ≠ -compareValues none (.num (.finite (ofInt 5))) (.num .nan) := by
  decide

mutual

/-- Without a collator it is the comparison of the store. -/
theorem compareValues_none : ∀ a b : Value, compareValues none a b = Values.compareValues a b
  | .arr xs, b => by
    cases b with
    | arr ys => rw [compareValues, Values.compareValues, compareElems_none xs ys]
    | _ => rfl
  | .obj ms, b => by
    cases b with
    | obj ns => rw [compareValues, Values.compareValues, compareEntries_none ms ns]
    | _ => rfl
  | .undefined, b | .null, b | .bool _, b | .num _, b | .str _, b | .date _, b | .regexp _, b | .binary _, b => by
    cases b <;> rfl

theorem compareElems_none : ∀ xs ys : List Value, compareElems none xs ys = Values.compareElems xs ys
  | [], _ | _ :: _, [] => rfl
  | x :: xs, y :: ys => by
    rw [compareElems, Values.compareElems, compareValues_none x y, compareElems_none xs ys]

theorem compareEntries_none : ∀ ms ns : List (Text × Value), compareEntries none ms ns = Values.compareEntries ms ns
  | [], _ | _ :: _, [] => rfl
  | (k, x) :: ms, (k', y) :: ns => by
    rw [compareEntries, Values.compareEntries, compareValues_none x y, compareEntries_none ms ns]

end

end TypeFerry.Minimongo.Order
