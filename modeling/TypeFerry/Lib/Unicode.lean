import Mathlib.Data.List.Sort
import TypeFerry.Lib.Numeral

/-! # Strings of Unicode scalar values

A string that every platform has: its code points, and its code units in UTF-8 and UTF-16. -/
namespace TypeFerry.Lib.Unicode
open TypeFerry.Lib.Numeral

abbrev Str := List Char

instance : LawfulBEq Str := inferInstance

def str (s : String) : Str := s.toList

def utf8 (s : Str) : List UInt8 := s.flatMap String.utf8EncodeChar

/-! ## The order of bytes -/

theorem ofNat_lt_ofNat {m n : ℕ} (hm : m < 256) (hn : n < 256) : UInt8.ofNat m < UInt8.ofNat n ↔ m < n := by
  rw [UInt8.lt_iff_toNat_lt, UInt8.toNat_ofNat', UInt8.toNat_ofNat', Nat.mod_eq_of_lt hm, Nat.mod_eq_of_lt hn]

theorem ofNat_inj {m n : ℕ} (hm : m < 256) (hn : n < 256) : UInt8.ofNat m = UInt8.ofNat n ↔ m = n := by
  rw [← UInt8.toNat_inj, UInt8.toNat_ofNat', UInt8.toNat_ofNat', Nat.mod_eq_of_lt hm, Nat.mod_eq_of_lt hn]

theorem utf8EncodeChar_lt {c d : Char} (h : c < d) (s t : List UInt8) :
    String.utf8EncodeChar c ++ s < String.utf8EncodeChar d ++ t := by
  have hlt : c.val.toNat < d.val.toNat := h
  have hbound : ∀ c : Char, c.val.toNat < 1114112 := fun c => by
    rcases c.valid with h | h
    · omega
    · exact h.2
  have hc := hbound c
  have hd := hbound d
  simp only [String.utf8EncodeChar]
  generalize c.val.toNat = m at *
  generalize d.val.toNat = n at *
  have hdiv : ∀ k : ℕ, k / 64 / 64 = k / 4096 ∧ k / 4096 / 64 = k / 262144 := fun k =>
    ⟨Nat.div_div_eq_div_mul .., Nat.div_div_eq_div_mul ..⟩
  have hm := hdiv m
  have hn := hdiv n
  have hmtop : m / 262144 % 8 = m / 262144 := Nat.mod_eq_of_lt (by omega)
  have hntop : n / 262144 % 8 = n / 262144 := Nat.mod_eq_of_lt (by omega)
  split_ifs <;> simp (disch := omega) only [List.cons_append, List.nil_append, List.cons_lt_cons_iff, ofNat_lt_ofNat,
    ofNat_inj, hmtop, hntop] <;> omega

theorem utf8_lt {a b : Str} (h : a < b) : utf8 a < utf8 b := by
  induction h with
  | @nil d b =>
    obtain ⟨x, xs, hx⟩ := List.exists_cons_of_ne_nil (String.utf8EncodeChar_ne_nil (c := d))
    rw [utf8, utf8, List.flatMap_cons, hx]
    exact List.nil_lt_cons ..
  | @cons c a b _ ih =>
    rw [utf8, utf8, List.flatMap_cons, List.flatMap_cons]
    exact List.append_left_lt ih
  | @rel c a d b h =>
    rw [utf8, utf8, List.flatMap_cons, List.flatMap_cons]
    exact utf8EncodeChar_lt h _ _

/-- The order of bytes is that of code points. -/
theorem utf8_lt_iff {a b : Str} : utf8 a < utf8 b ↔ a < b := by
  refine ⟨fun h => ?_, utf8_lt⟩
  by_contra hnot
  rcases List.le_iff_lt_or_eq.mp (List.not_lt.mp hnot) with hgt | rfl
  · exact List.lt_asymm h (utf8_lt hgt)
  · exact List.lt_irrefl _ h

/-- Strings are compared byte by byte. -/
def less (a b : Str) : Bool := utf8 a < utf8 b

/-- `g` may come after `f`. -/
def KeyLe {α : Type*} (f g : Str × α) : Prop := less g.1 f.1 = false

instance {α : Type*} (f g : Str × α) : Decidable (KeyLe f g) := inferInstanceAs (Decidable (_ = _))

instance {α : Type*} : Std.Total (KeyLe (α := α)) where
  total f g := by
    simp only [KeyLe, less, decide_eq_false_iff_not, List.not_lt]
    exact List.le_total _ _

instance {α : Type*} : IsTrans (Str × α) KeyLe where
  trans f g h := by
    simp only [KeyLe, less, decide_eq_false_iff_not, List.not_lt]
    exact List.le_trans

def sortFields {α : Type*} (fields : List (Str × α)) : List (Str × α) := fields.insertionSort KeyLe

section
variable {α β : Type*}

theorem sortFields_perm (fields : List (Str × α)) : (sortFields fields).Perm fields := List.perm_insertionSort ..

theorem sortFields_map (g : α → β) (fields : List (Str × α)) :
    sortFields (fields.map fun field => (field.1, g field.2)) =
      (sortFields fields).map fun field => (field.1, g field.2) :=
  (List.map_insertionSort KeyLe (s := KeyLe) (fun field => (field.1, g field.2)) fields
    fun _ _ _ _ => Iff.rfl).symm

theorem keyLe_iff {f g : Str × α} : KeyLe f g ↔ ¬g.1 < f.1 := by
  rw [KeyLe, less, decide_eq_false_iff_not, utf8_lt_iff]

/-- Distinct keys are sorted by their code points. -/
theorem sortFields_sorted {fields : List (Str × α)} (h : (fields.map Prod.fst).Nodup) :
    ((sortFields fields).map Prod.fst).Pairwise (· < ·) := by
  have hnodup := ((sortFields_perm fields).map Prod.fst).nodup_iff.mpr h
  have hle : ((sortFields fields).map Prod.fst).Pairwise fun a b => ¬b < a :=
    (List.pairwise_insertionSort KeyLe fields).map _ fun _ _ => keyLe_iff.mp
  refine hle.imp₂ (fun a b hle hne => ?_) hnodup
  exact (List.le_iff_lt_or_eq.mp (List.not_lt.mp hle)).resolve_right hne

/-- The fields of canonical text are sorted. -/
def inOrder (canonical : Bool) (fields : List (Str × α)) : List (Str × α) :=
  if canonical then sortFields fields else fields

variable {canonical : Bool}

theorem inOrder_map (g : α → β) (fields : List (Str × α)) :
    inOrder canonical (fields.map fun field => (field.1, g field.2)) =
      (inOrder canonical fields).map fun field => (field.1, g field.2) := by
  cases canonical with
  | false => rfl
  | true => exact sortFields_map g fields

theorem inOrder_perm (fields : List (Str × α)) : (inOrder canonical fields).Perm fields := by
  cases canonical with
  | false => exact .refl _
  | true => exact sortFields_perm fields

theorem inOrder_one (field : Str × α) : inOrder canonical [field] = [field] := by
  cases canonical <;> rfl

end

/-! ## UTF-16 -/

def utf16EncodeChar (c : Char) : Text :=
  let v := c.val.toNat
  if v < 0x10000 then [UInt16.ofNat v]
  else [UInt16.ofNat (0xD800 + (v - 0x10000) / 0x400), UInt16.ofNat (0xDC00 + (v - 0x10000) % 0x400)]

def utf16 (s : Str) : Text := s.flatMap utf16EncodeChar

theorem unit_inj {m n : ℕ} (hm : m < 65536) (hn : n < 65536) : UInt16.ofNat m = UInt16.ofNat n ↔ m = n := by
  rw [← UInt16.toNat_inj, UInt16.toNat_ofNat', UInt16.toNat_ofNat', Nat.mod_eq_of_lt hm, Nat.mod_eq_of_lt hn]

/-- No character starts as another one does. -/
theorem utf16EncodeChar_append {c d : Char} {s t : Text}
    (h : utf16EncodeChar c ++ s = utf16EncodeChar d ++ t) : c = d ∧ s = t := by
  have hsurrogate : ∀ c : Char, c.val.toNat < 0xD800 ∨ 0xDFFF < c.val.toNat ∧ c.val.toNat < 0x110000 := fun c => c.valid
  have hc := hsurrogate c
  have hd := hsurrogate d
  have heq : c.val.toNat = d.val.toNat → c = d := fun h => Char.ext (UInt32.toNat_inj.mp h)
  simp only [utf16EncodeChar] at h
  generalize c.val.toNat = m at *
  generalize d.val.toNat = n at *
  split_ifs at h <;>
    simp (disch := omega) only [List.cons_append, List.nil_append, List.cons.injEq, unit_inj] at h
  · exact ⟨heq h.1, h.2⟩
  · omega
  · omega
  · exact ⟨heq (by omega), h.2.2⟩

theorem utf16EncodeChar_ne_nil (c : Char) : utf16EncodeChar c ≠ [] := by
  rw [utf16EncodeChar]
  split_ifs <;> exact List.cons_ne_nil _ _

theorem utf16_injective : ∀ {a b : Str}, utf16 a = utf16 b → a = b
  | [], [], _ => rfl
  | [], d :: b, h => by
    rw [utf16, utf16, List.flatMap_cons] at h
    exact absurd (List.append_eq_nil_iff.mp h.symm).1 (utf16EncodeChar_ne_nil d)
  | c :: a, [], h => by
    rw [utf16, utf16, List.flatMap_cons] at h
    exact absurd (List.append_eq_nil_iff.mp h).1 (utf16EncodeChar_ne_nil c)
  | c :: a, d :: b, h => by
    rw [utf16, utf16, List.flatMap_cons, List.flatMap_cons] at h
    obtain ⟨rfl, hrest⟩ := utf16EncodeChar_append h
    rw [utf16_injective hrest]

end TypeFerry.Lib.Unicode
