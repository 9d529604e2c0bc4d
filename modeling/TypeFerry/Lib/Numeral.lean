import Mathlib.Data.Nat.Digits.Lemmas
import Mathlib.Tactic.Ring

/-! # Decimal numbers and their text

A decimal is a sign, a significand without trailing zeros and a power of ten.
Every finite double is one of them: the shortest decimal that reads back as the
double. `Decimal.toText` writes a decimal the way ECMAScript writes a number
(`Number::toString`), and `readNumber` reads the number grammar of JSON. The
main result, `readNumber_toText`, is that reading what was written gives the
number back, negative zero apart, which is written without its sign. -/
namespace TypeFerry.Lib.Numeral

/-- Text is a list of UTF-16 code units. -/
abbrev Text := List UInt16

instance : LawfulBEq Text := inferInstance

/-- The text of an ASCII literal. -/
def js (s : String) : Text := s.toList.map fun c => c.val.toUInt16

/-- A decimal number, `± sig × 10 ^ exp`, in its shortest form. -/
structure Decimal where
  neg : Bool
  sig : Nat
  exp : Int
  normal : (sig = 0 ∧ exp = 0) ∨ sig % 10 ≠ 0
  deriving DecidableEq

namespace Decimal

def zero : Decimal := ⟨false, 0, 0, Or.inl ⟨rfl, rfl⟩⟩

/-- Negative zero is zero once it has been written. -/
def dropNegZero (d : Decimal) : Decimal := if d.sig = 0 then zero else d

end Decimal

/-! ## The shortest form -/

/-- Move the trailing zeros of a significand into the count `k`. -/
def strip : Nat → Nat → Nat → Nat × Nat
  | 0, m, k => (m, k)
  | f + 1, m, k => if m % 10 = 0 then strip f (m / 10) (k + 1) else (m, k)

theorem strip_normal : ∀ (f m k : Nat), m ≠ 0 → m ≤ f → (strip f m k).1 % 10 ≠ 0
  | 0, m, k, h0, hf => absurd (Nat.le_zero.mp hf) h0
  | f + 1, m, k, h0, hf => by
    unfold strip
    split
    · exact strip_normal f (m / 10) (k + 1) (by omega) (by omega)
    · assumption

theorem strip_mul {s : Nat} (hs : s % 10 ≠ 0) : ∀ (z f k : Nat), z ≤ f →
    strip f (s * 10 ^ z) k = (s, k + z)
  | 0, 0, k, _ => by simp [strip]
  | 0, f + 1, k, _ => by simp [strip, hs]
  | z + 1, 0, k, h => absurd h (by omega)
  | z + 1, f + 1, k, h => by
    have hm : s * 10 ^ (z + 1) = s * 10 ^ z * 10 := by ring
    rw [strip, if_pos (by rw [hm]; omega), hm, Nat.mul_div_cancel _ (by decide),
      strip_mul hs z f (k + 1) (by omega)]
    simp only [Prod.mk.injEq, true_and]
    omega

/-- The decimal `± m × 10 ^ e` in its shortest form. -/
def ofParts (neg : Bool) (m : Nat) (e : Int) : Decimal :=
  if h : m = 0 then ⟨neg, 0, 0, Or.inl ⟨rfl, rfl⟩⟩
  else ⟨neg, (strip m m 0).1, e + (strip m m 0).2, Or.inr (strip_normal m m 0 h (Nat.le_refl m))⟩

theorem le_mul_pow {s : Nat} (hs : s ≠ 0) (z : Nat) : z ≤ s * 10 ^ z := by
  have h1 : z < 10 ^ z := Nat.lt_pow_self (by decide)
  have h2 : 1 * 10 ^ z ≤ s * 10 ^ z := Nat.mul_le_mul_right _ (by omega)
  omega

/-- Trailing zeros of the significand count into the exponent. -/
theorem ofParts_mul (d : Decimal) (hd : d.sig ≠ 0) (z : Nat) {m : Nat} {e : Int}
    (hm : m = d.sig * 10 ^ z) (he : e + z = d.exp) : ofParts d.neg m e = d := by
  have hs : d.sig % 10 ≠ 0 := d.normal.resolve_left fun h => hd h.1
  have hz := le_mul_pow hd z
  have h0 : m ≠ 0 := by
    rw [hm]; exact Nat.mul_ne_zero hd (Nat.pow_pos (by decide)).ne'
  have hst : strip m m 0 = (d.sig, z) := by
    rw [hm, strip_mul hs z _ 0 hz, Nat.zero_add]
  obtain ⟨neg, sig, exp, hn⟩ := d
  simp only [ofParts, h0, hst, dif_neg, not_false_eq_true, Decimal.mk.injEq, true_and]
  exact he

theorem strip_mul_pow : ∀ (f m k : Nat), m * 10 ^ k = (strip f m k).1 * 10 ^ (strip f m k).2
  | 0, _, _ => rfl
  | f + 1, m, k => by
    unfold strip
    split
    · rw [← strip_mul_pow f (m / 10) (k + 1), Nat.pow_succ', ← Nat.mul_assoc,
        Nat.div_mul_cancel (Nat.dvd_of_mod_eq_zero ‹_›)]
    · rfl

/-- The decimal of an integer. -/
def ofInt (n : Int) : Decimal := ofParts (decide (n < 0)) n.natAbs 0

/-- An integer's decimal has no fraction and the integer's magnitude. -/
theorem ofInt_spec (n : Int) : 0 ≤ (ofInt n).exp ∧
    (ofInt n).sig * 10 ^ (ofInt n).exp.toNat = n.natAbs ∧ (ofInt n).neg = decide (n < 0) := by
  unfold ofInt ofParts
  split
  · next h => exact ⟨Int.le_refl 0, by simp [h], rfl⟩
  · have hs := strip_mul_pow n.natAbs n.natAbs 0
    refine ⟨by simp, ?_, rfl⟩
    simpa using hs.symm

/-! ## Digits -/

/-- The decimal digits of a number, most significant first. -/
def digitsOf (n : Nat) : List Nat := if n = 0 then [0] else (Nat.digits 10 n).reverse

/-- The number a list of digits denotes. -/
def natOf (ds : List Nat) : Nat := ds.foldl (fun a d => a * 10 + d) 0

theorem natOf_append (xs ys : List Nat) : natOf (xs ++ ys) = natOf xs * 10 ^ ys.length + natOf ys := by
  have key : ∀ (ys : List Nat) (a : Nat),
      ys.foldl (fun a d => a * 10 + d) a = a * 10 ^ ys.length + natOf ys := by
    intro ys
    induction ys with
    | nil => intro a; simp [natOf]
    | cons y ys ih =>
      intro a
      have hy : natOf (y :: ys) = y * 10 ^ ys.length + natOf ys := by
        simpa [natOf] using ih y
      rw [List.foldl_cons, ih, hy, List.length_cons]
      ring
  rw [natOf, List.foldl_append, key]
  rfl

theorem natOf_zeros (n : Nat) : natOf (List.replicate n 0) = 0 := by
  induction n with
  | zero => rfl
  | succ n ih => rw [List.replicate_succ', natOf_append, ih]; simp [natOf]

theorem natOf_digitsOf (n : Nat) : natOf (digitsOf n) = n := by
  unfold digitsOf
  split
  · next h => rw [h]; rfl
  · rw [natOf, List.foldl_reverse]
    have h := Nat.ofDigits_digits 10 n
    rw [Nat.ofDigits_eq_foldr] at h
    simpa [Nat.mul_comm, Nat.add_comm] using h

theorem digitsOf_ne_nil (n : Nat) : digitsOf n ≠ [] := by
  unfold digitsOf
  split
  · simp
  · next h => simpa using Nat.digits_ne_nil_iff_ne_zero.mpr h

theorem digitsOf_lt {n d : Nat} (h : d ∈ digitsOf n) : d < 10 := by
  unfold digitsOf at h
  split at h
  · simp only [List.mem_singleton] at h; omega
  · exact Nat.digits_lt_base (by decide) (List.mem_reverse.mp h)

/-- A number other than zero has no leading zero. -/
theorem digitsOf_head {n : Nat} (h : n ≠ 0) : ∀ d ∈ (digitsOf n).head?, d ≠ 0 := by
  intro d hd
  simp only [digitsOf, h, if_false, List.head?_reverse, Option.mem_def] at hd
  have hne : Nat.digits 10 n ≠ [] := Nat.digits_ne_nil_iff_ne_zero.mpr h
  rw [List.getLast?_eq_some_getLast hne, Option.some.injEq] at hd
  exact hd ▸ Nat.getLast_digit_ne_zero 10 h

/-! ## Writing -/

/-- The code unit of a digit. -/
def unit (d : Nat) : UInt16 := UInt16.ofNat (48 + d)

/-- The fraction part of a numeral. -/
def fracText (frac : List Nat) : Text := if frac = [] then [] else js "." ++ frac.map unit

/-- The exponent part of a numeral. -/
def expText : Option (Bool × Nat) → Text
  | none => []
  | some (neg, e) => js "e" ++ (js (if neg then "-" else "+") ++ (digitsOf e).map unit)

/-- A numeral from its sign, integer digits, fraction digits and exponent. -/
def numeral (neg : Bool) (int frac : List Nat) (exp : Option (Bool × Nat)) : Text :=
  (if neg then js "-" else []) ++ (int.map unit ++ (fracText frac ++ expText exp))

namespace Decimal

/-- `Number::toString`: with `k` digits and the point after the `n`-th of them,
plain notation for `-6 < n ≤ 21` and scientific notation otherwise. Zero is
written without a sign. -/
def toText (d : Decimal) : Text :=
  let ds := digitsOf d.sig
  let k := ds.length
  let n : Int := d.exp + k
  if d.sig = 0 then js "0"
  else if k ≤ n ∧ n ≤ 21 then numeral d.neg (ds ++ List.replicate (n - k).toNat 0) [] none
  else if 0 < n ∧ n ≤ 21 then numeral d.neg (ds.take n.toNat) (ds.drop n.toNat) none
  else if -6 < n ∧ n ≤ 0 then numeral d.neg [0] (List.replicate (-n).toNat 0 ++ ds) none
  else numeral d.neg (ds.take 1) (ds.drop 1) (some (decide (n - 1 < 0), (n - 1).natAbs))

end Decimal

/-! ## Reading -/

/-- The value of a digit unit. -/
def digit? (u : UInt16) : Option Nat :=
  if 48 ≤ u.toNat ∧ u.toNat ≤ 57 then some (u.toNat - 48) else none

/-- The longest run of digits at the head of a text, and the text after it. -/
def readDigits : Text → List Nat × Text
  | [] => ([], [])
  | u :: rest => match digit? u with
    | some d => ((d :: (readDigits rest).1), (readDigits rest).2)
    | none => ([], u :: rest)

/-- An optional fraction: a point and at least one digit. -/
def readFrac : Text → Option (List Nat × Text)
  | [] => some ([], [])
  | u :: rest =>
    if u = 46 then
      if (readDigits rest).1 = [] then none else some (readDigits rest)
    else some ([], u :: rest)

/-- The digits of an exponent, with its sign. -/
def readExpDigits (neg : Bool) (s : Text) : Option (Int × Text) :=
  if (readDigits s).1 = [] then none
  else some ((if neg then -1 else 1) * (natOf (readDigits s).1 : Int), (readDigits s).2)

/-- An optional exponent. -/
def readExp : Text → Option (Int × Text)
  | [] => some (0, [])
  | u :: rest =>
    if u = 101 ∨ u = 69 then
      match rest with
      | [] => none
      | v :: r =>
        if v = 45 then readExpDigits true r
        else if v = 43 then readExpDigits false r
        else readExpDigits false (v :: r)
    else some (0, u :: rest)

/-- The digits of an integer part: one zero, or no leading zero. -/
def intOk : List Nat → Bool
  | [] => false
  | [_] => true
  | d :: _ :: _ => d != 0

/-- The part of a number after its sign. -/
def readUnsigned (neg : Bool) (s : Text) : Option (Decimal × Text) :=
  let int := readDigits s
  if intOk int.1 then do
    let frac ← readFrac int.2
    let exp ← readExp frac.2
    some (ofParts neg (natOf (int.1 ++ frac.1)) (exp.1 - frac.1.length), exp.2)
  else none

/-- A number of the JSON grammar at the head of a text. -/
def readNumber : Text → Option (Decimal × Text)
  | [] => none
  | u :: rest => if u = 45 then readUnsigned true rest else readUnsigned false (u :: rest)

/-! ## Reading back what was written -/

/-- A text that cannot continue a number. -/
def NumFollow (r : Text) : Prop :=
  ∀ u ∈ r.head?, digit? u = none ∧ u ≠ 46 ∧ u ≠ 101 ∧ u ≠ 69

theorem unit_toNat {d : Nat} (h : d < 10) : (unit d).toNat = 48 + d := by
  simp only [unit, UInt16.toNat_ofNat']; omega

theorem digit?_unit {d : Nat} (h : d < 10) : digit? (unit d) = some d := by
  simp only [digit?, unit_toNat h]
  rw [if_pos (by omega)]
  simp

theorem unit_ne {d : Nat} (h : d < 10) {u : UInt16} (hu : digit? u = none) : unit d ≠ u := by
  intro he
  rw [← he, digit?_unit h] at hu
  cases hu

theorem readDigits_append {ds : List Nat} {r : Text} (hd : ∀ d ∈ ds, d < 10)
    (hr : ∀ u ∈ r.head?, digit? u = none) : readDigits (ds.map unit ++ r) = (ds, r) := by
  induction ds with
  | nil =>
    cases r with
    | nil => rfl
    | cons u rest => simp [readDigits, hr u (by simp)]
  | cons d ds ih =>
    simp only [List.map_cons, List.cons_append, readDigits, digit?_unit (hd d (by simp)),
      ih fun x hx => hd x (by simp [hx])]

theorem readFrac_append {ds : List Nat} {r : Text} (hd : ∀ d ∈ ds, d < 10)
    (hr : ∀ u ∈ r.head?, digit? u = none ∧ u ≠ 46) :
    readFrac (fracText ds ++ r) = some (ds, r) := by
  unfold fracText
  by_cases h : ds = []
  · cases r with
    | nil => simp [h, readFrac]
    | cons u rest => simp [h, readFrac, (hr u (by simp)).2]
  · have hj : js "." = [46] := by decide
    have hrd := readDigits_append hd fun u hu => (hr u hu).1
    simp [h, hj, readFrac, hrd]

theorem readExpDigits_append (neg : Bool) (e : Nat) {r : Text}
    (hr : ∀ u ∈ r.head?, digit? u = none) :
    readExpDigits neg ((digitsOf e).map unit ++ r) =
      some ((if neg then -1 else 1) * (e : Int), r) := by
  have hrd := readDigits_append (fun d (h : d ∈ digitsOf e) => digitsOf_lt h) hr
  simp [readExpDigits, hrd, digitsOf_ne_nil, natOf_digitsOf]

/-- The exponent a numeral is written with. -/
def expValue : Option (Bool × Nat) → Int
  | none => 0
  | some (neg, e) => (if neg then -1 else 1) * (e : Int)

theorem readExp_append (exp : Option (Bool × Nat)) {r : Text} (hr : NumFollow r) :
    readExp (expText exp ++ r) = some (expValue exp, r) := by
  match exp with
  | none =>
    cases r with
    | nil => simp [expText, readExp, expValue]
    | cons u rest =>
      obtain ⟨_, _, h1, h2⟩ := hr u (by simp)
      simp [expText, readExp, expValue, h1, h2]
  | some (true, e) =>
    have hj : js "e" = [101] ∧ js "-" = [45] := by decide
    have := readExpDigits_append true e fun u hu => (hr u hu).1
    simpa [expText, hj.1, hj.2, readExp, expValue] using this
  | some (false, e) =>
    have hj : js "e" = [101] ∧ js "+" = [43] := by decide
    have := readExpDigits_append false e fun u hu => (hr u hu).1
    simpa [expText, hj.1, hj.2, readExp, expValue] using this

theorem expText_head (exp : Option (Bool × Nat)) {r : Text} (hr : NumFollow r) :
    ∀ u ∈ (expText exp ++ r).head?, digit? u = none ∧ u ≠ 46 := by
  match exp with
  | none => intro u hu; exact ⟨(hr u (by simpa [expText] using hu)).1, (hr u (by simpa [expText] using hu)).2.1⟩
  | some (eneg, e) =>
    have hj : js "e" = [101] := by decide
    intro u hu
    simp only [expText, hj, List.cons_append, List.head?_cons, Option.mem_def,
      Option.some.injEq] at hu
    subst hu
    decide

theorem fracText_head (frac : List Nat) {r : Text}
    (hr : ∀ u ∈ r.head?, digit? u = none) : ∀ u ∈ (fracText frac ++ r).head?, digit? u = none := by
  unfold fracText
  intro u hu
  by_cases hn : frac = []
  · exact hr u (by simpa [hn] using hu)
  · have hj : js "." = [46] := by decide
    simp only [hn, if_false, hj, List.cons_append, List.head?_cons, Option.mem_def,
      Option.some.injEq] at hu
    subst hu
    decide

/-- A numeral reads back as the number its parts denote. -/
theorem readNumber_numeral (neg : Bool) {int frac : List Nat} (exp : Option (Bool × Nat))
    {r : Text} (hi : intOk int = true) (hint : ∀ d ∈ int, d < 10) (hfrac : ∀ d ∈ frac, d < 10)
    (hr : NumFollow r) :
    readNumber (numeral neg int frac exp ++ r) =
      some (ofParts neg (natOf (int ++ frac)) (expValue exp - frac.length), r) := by
  have hexp := expText_head exp hr
  have hd := readDigits_append hint (fracText_head frac fun u hu => (hexp u hu).1)
  have hu : readUnsigned neg (int.map unit ++ (fracText frac ++ (expText exp ++ r))) =
      some (ofParts neg (natOf (int ++ frac)) (expValue exp - frac.length), r) := by
    simp only [readUnsigned, hd, hi, if_true, readFrac_append hfrac hexp, Option.bind_some, bind,
      readExp_append exp hr]
  obtain ⟨d, ds, rfl⟩ : ∃ d ds, int = d :: ds := by
    match int, hi with
    | d :: ds, _ => exact ⟨d, ds, rfl⟩
  have hd45 : unit d ≠ 45 := unit_ne (hint d (by simp)) (by decide)
  cases neg with
  | true =>
    have hj : js "-" = [45] := by decide
    simpa [numeral, hj, readNumber] using hu
  | false => simpa [numeral, readNumber, hd45] using hu

theorem intOk_of_head {ds : List Nat} (hne : ds ≠ []) (h : ∀ d ∈ ds.head?, d ≠ 0) :
    intOk ds = true := by
  match ds, hne with
  | [_], _ => rfl
  | d :: _ :: _, _ => simpa [intOk] using h d (by simp)

/-- **Numbers survive their text.** Reading a written number gives it back,
with negative zero read as zero. -/
theorem readNumber_toText (d : Decimal) {r : Text} (hr : NumFollow r) :
    readNumber (d.toText ++ r) = some (d.dropNegZero, r) := by
  have hlt : ∀ x ∈ digitsOf d.sig, x < 10 := fun _ h => digitsOf_lt h
  have hz : ∀ n, ∀ x ∈ List.replicate n 0, x < 10 := fun n x h => by
    rw [List.eq_of_mem_replicate h]; decide
  unfold Decimal.toText Decimal.dropNegZero
  by_cases h0 : d.sig = 0
  · have hn : readNumber (numeral false [0] [] none ++ r) = _ :=
      readNumber_numeral false none rfl (by simp) (by simp) hr
    have hj : numeral false [0] [] none = js "0" := by decide
    rw [hj] at hn
    simpa [h0, expValue, ofParts, natOf, Decimal.zero] using hn
  have hhd := digitsOf_head h0
  have hne := digitsOf_ne_nil d.sig
  have hlen : 0 < (digitsOf d.sig).length := List.length_pos_iff.mpr hne
  simp only [h0, if_false]
  split_ifs with h1 h2 h3
  · -- all digits stand before the point
    rw [readNumber_numeral d.neg none (intOk_of_head (by simp [hne]) ?_) ?_ (by simp) hr]
    · rw [ofParts_mul d h0 (d.exp).toNat]
      · rw [List.append_nil, natOf_append, natOf_zeros, natOf_digitsOf, List.length_replicate,
          Nat.add_zero]
        congr 2; omega
      · simp only [expValue, List.length_nil]; omega
    · rw [List.head?_append_of_ne_nil _ hne]; exact hhd
    · intro x hx
      rcases List.mem_append.mp hx with hx | hx
      · exact hlt x hx
      · exact hz _ x hx
  · -- the point stands between two digits
    have htake : (digitsOf d.sig).take (d.exp + (digitsOf d.sig).length).toNat ≠ [] := by
      intro he
      have := congrArg List.length he
      simp only [List.length_take, List.length_nil] at this
      omega
    rw [readNumber_numeral d.neg none (intOk_of_head htake ?_)
      (fun x hx => hlt x (List.mem_of_mem_take hx)) (fun x hx => hlt x (List.mem_of_mem_drop hx)) hr]
    · rw [ofParts_mul d h0 0]
      · rw [List.take_append_drop, natOf_digitsOf]; omega
      · simp only [expValue, List.length_drop]; omega
    · rw [List.head?_take, if_neg (by omega)]; exact hhd
  · -- zeros stand between the point and the first digit
    rw [readNumber_numeral d.neg none rfl (by simp) ?_ hr]
    · rw [ofParts_mul d h0 0]
      · rw [natOf_append, natOf_append, natOf_zeros, natOf_digitsOf]
        simp [natOf]
      · simp only [expValue, List.length_append, List.length_replicate]; omega
    · intro x hx
      rcases List.mem_append.mp hx with hx | hx
      · exact hz _ x hx
      · exact hlt x hx
  · -- scientific notation
    have htake : (digitsOf d.sig).take 1 ≠ [] := by
      intro he
      have := congrArg List.length he
      simp only [List.length_take, List.length_nil] at this
      omega
    rw [readNumber_numeral d.neg _ (intOk_of_head htake ?_)
      (fun x hx => hlt x (List.mem_of_mem_take hx)) (fun x hx => hlt x (List.mem_of_mem_drop hx)) hr]
    · rw [ofParts_mul d h0 0]
      · rw [List.take_append_drop, natOf_digitsOf]; omega
      · simp only [expValue, List.length_drop]
        split_ifs with hs <;> simp only [decide_eq_true_eq] at hs <;> omega
    · rw [List.head?_take, if_neg (by omega)]; exact hhd

end TypeFerry.Lib.Numeral
