import Mathlib.Data.Int.Order.Basic
import Mathlib.Data.List.Forall2
import Mathlib.Data.List.Sort
import Mathlib.Data.Set.Defs
import Mathlib.Order.Compare

/-! # Comparison functions

A comparison function gives a negative number, zero or a positive one. On a set it is an order if it gives the
signs of one. -/
namespace TypeFerry.Lib.Comparison
open Std

/-- The number that a comparison function gives for an ordering. -/
def toInt : Ordering → ℤ
  | .lt => -1
  | .eq => 0
  | .gt => 1

@[simp] theorem toInt_swap (o : Ordering) : toInt o.swap = -toInt o := by
  cases o <;> rfl

@[simp] theorem toInt_eq_zero {o : Ordering} : toInt o = 0 ↔ o = .eq := by
  cases o <;> simp [toInt]

@[simp] theorem toInt_nonpos {o : Ordering} : toInt o ≤ 0 ↔ o.isLE = true := by
  cases o <;> simp [toInt]

theorem toInt_injective : Function.Injective toInt := by
  intro o o' h
  cases o <;> cases o' <;> first | rfl | cases h

theorem toInt_compare_zero (x : ℤ) : toInt (compare x 0) = x.sign := by
  rcases Int.lt_trichotomy x 0 with h | rfl | h
  · rw [compare_lt_iff_lt.mpr h, Int.sign_eq_neg_one_of_neg h]
    rfl
  · rfl
  · rw [compare_gt_iff_gt.mpr h, Int.sign_eq_one_of_pos h]
    rfl

theorem then_eq_left {o : Ordering} (h : o ≠ .eq) (o' : Ordering) : o.then o' = o := by
  cases o with
  | eq => exact absurd rfl h
  | _ => rfl

variable {α β : Type*}

instance transCmp_comap (cmp : β → β → Ordering) [TransCmp cmp] (f : α → β) : TransCmp fun a b => cmp (f a) (f b) where
  eq_swap {a b} := @OrientedCmp.eq_swap β cmp _ (f a) (f b)
  isLE_trans {a b c} := @TransCmp.isLE_trans β cmp _ (f a) (f b) (f c)

theorem compareLex_eq_of_forall₂ {r : α → α → Prop} {cmp : α → α → Ordering} {xs ys : List α}
    (h : List.Forall₂ r xs ys) (hr : ∀ x ∈ xs, ∀ y ∈ ys, r x y → cmp x y = .eq) : List.compareLex cmp xs ys = .eq := by
  induction h with
  | nil => rfl
  | cons hxy _ ih =>
    rw [List.compareLex_cons_cons, hr _ (.head _) _ (.head _) hxy, Ordering.eq_then]
    exact ih fun x hx y hy => hr x (.tail _ hx) y (.tail _ hy)

/-- Antisymmetric and transitive, as sorting requires. -/
def IsOrder (compare : α → α → ℤ) (S : Set α) : Prop :=
  (∀ a ∈ S, ∀ b ∈ S, compare a b = -compare b a) ∧
    ∀ a ∈ S, ∀ b ∈ S, ∀ c ∈ S, compare a b ≤ 0 → compare b c ≤ 0 → compare a c ≤ 0

theorem isOrder_of_transCmp {compare : α → α → ℤ} {S : Set α}
    (h : ∀ a ∈ S, ∀ b ∈ S, ∀ c ∈ S, ∃ cmp : α → α → Ordering, TransCmp cmp ∧
      ∀ x y, (x = a ∨ x = b ∨ x = c) → (y = a ∨ y = b ∨ y = c) → compare x y = toInt (cmp x y)) :
    IsOrder compare S := by
  constructor
  · intro a ha b hb
    obtain ⟨cmp, hcmp, hcompare⟩ := h a ha b hb b hb
    rw [hcompare a b (by simp) (by simp), hcompare b a (by simp) (by simp), @OrientedCmp.eq_swap _ cmp _ _ _, toInt_swap]
  · intro a ha b hb c hc hab hbc
    obtain ⟨cmp, hcmp, hcompare⟩ := h a ha b hb c hc
    rw [hcompare a b (by simp) (by simp), toInt_nonpos] at hab
    rw [hcompare b c (by simp) (by simp), toInt_nonpos] at hbc
    rw [hcompare a c (by simp) (by simp), toInt_nonpos]
    exact TransCmp.isLE_trans hab hbc

/-! ## Orders from orders -/

section
variable {compare compare' : α → α → ℤ} {S : Set α}

theorem IsOrder.congr (h : IsOrder compare S) (heq : ∀ a ∈ S, ∀ b ∈ S, compare' a b = compare a b) : IsOrder compare' S := by
  constructor
  · intro a ha b hb
    rw [heq a ha b hb, heq b hb a ha, h.1 a ha b hb]
  · intro a ha b hb c hc hab hbc
    rw [heq a ha b hb] at hab
    rw [heq b hb c hc] at hbc
    rw [heq a ha c hc]
    exact h.2 a ha b hb c hc hab hbc

theorem IsOrder.comap {T : Set β} (h : IsOrder compare S) {f : β → α} (hf : ∀ b ∈ T, f b ∈ S) :
    IsOrder (fun a b => compare (f a) (f b)) T :=
  ⟨fun a ha b hb => h.1 (f a) (hf a ha) (f b) (hf b hb),
    fun a ha b hb c hc => h.2 (f a) (hf a ha) (f b) (hf b hb) (f c) (hf c hc)⟩

/-- The order in the other direction. -/
theorem IsOrder.neg (h : IsOrder compare S) : IsOrder (fun a b => -compare a b) S := by
  constructor
  · intro a ha b hb
    have hswap := h.1 a ha b hb
    dsimp only
    omega
  · intro a ha b hb c hc hab hbc
    have hba := h.1 b hb a ha
    have hcb := h.1 c hc b hb
    have hca := h.1 c hc a ha
    have htrans := h.2 c hc b hb a ha
    dsimp only at hab hbc ⊢
    omega

/-- The second comparison decides where the first one makes no difference. -/
def thenBy (compare compare' : α → α → ℤ) (a b : α) : ℤ :=
  if compare a b ≠ 0 then compare a b else compare' a b

theorem IsOrder.thenBy (h : IsOrder compare S) (h' : IsOrder compare' S) : IsOrder (thenBy compare compare') S := by
  constructor
  · intro a ha b hb
    have hab := h.1 a ha b hb
    have hab' := h'.1 a ha b hb
    rw [Comparison.thenBy, Comparison.thenBy]
    split_ifs <;> omega
  · intro a ha b hb c hc hab hbc
    have htrans := h.2 a ha b hb c hc
    have hcab := h.2 c hc a ha b hb
    have hbca := h.2 b hb c hc a ha
    have htrans' := h'.2 a ha b hb c hc
    have hba := h.1 b hb a ha
    have hcb := h.1 c hc b hb
    have hca := h.1 c hc a ha
    rw [Comparison.thenBy] at hab hbc ⊢
    split_ifs at hab hbc ⊢ <;> omega

/-! ## The least element -/

/-- Going through a list with the least element so far. -/
theorem IsOrder.foldl_least (h : IsOrder compare S) : ∀ {l : List α} {a : α}, a ∈ S → (∀ b ∈ l, b ∈ S) →
    (l.foldl (fun minimum b => if compare b minimum < 0 then b else minimum) a) ∈ a :: l ∧
      ∀ b ∈ a :: l, compare (l.foldl (fun minimum b => if compare b minimum < 0 then b else minimum) a) b ≤ 0
  | [], a, ha, _ => by
    have hself := h.1 a ha a ha
    refine ⟨.head _, fun b hb => ?_⟩
    rw [List.mem_singleton.mp hb, List.foldl_nil]
    omega
  | b :: l, a, ha, hl => by
    have hb := hl b (.head _)
    have hl' := fun c hc => hl c (.tail _ hc)
    have hself := h.1 b hb b hb
    have hself' := h.1 a ha a ha
    have hswap := h.1 a ha b hb
    rw [List.foldl_cons]
    -- The next element `c` is the smaller one of the two.
    obtain ⟨c, hcase, hc, hca, hcb⟩ : ∃ c, (if compare b a < 0 then b else a) = c ∧ (c = a ∨ c = b) ∧
        compare c a ≤ 0 ∧ compare c b ≤ 0 := by
      refine ⟨_, rfl, ?_⟩
      split
      · exact ⟨.inr rfl, by omega, by omega⟩
      · exact ⟨.inl rfl, by omega, by omega⟩
    rw [hcase]
    have hcS : c ∈ S := by rcases hc with rfl | rfl <;> assumption
    obtain ⟨hmem, hle⟩ := h.foldl_least hcS hl'
    have hmS : l.foldl (fun minimum b => if compare b minimum < 0 then b else minimum) c ∈ S := by
      rcases List.mem_cons.mp hmem with heq | hm
      · rw [heq]
        exact hcS
      · exact hl' _ hm
    have hlec := hle c (.head _)
    constructor
    · rcases List.mem_cons.mp hmem with heq | hm
      · rw [heq]
        rcases hc with rfl | rfl
        · exact .head _
        · exact .tail _ (.head _)
      · exact .tail _ (.tail _ hm)
    · intro d hd
      rcases List.mem_cons.mp hd with rfl | hd
      · exact h.2 _ hmS _ hcS _ ha hlec hca
      · rcases List.mem_cons.mp hd with rfl | hd
        · exact h.2 _ hmS _ hcS _ hb hlec hcb
        · exact hle d (.tail _ hd)

/-! ## Sorting -/

theorem IsOrder.pairwise_insertionSort (h : IsOrder compare S) {l : List α} (hl : ∀ a ∈ l, a ∈ S) :
    (l.insertionSort fun a b => compare a b ≤ 0).Pairwise fun a b => compare a b ≤ 0 := by
  -- Only on `S` the comparison is an order, so the list of elements of `S` is sorted.
  have htotal : Std.Total fun a b : S => compare a b ≤ 0 := ⟨fun a b => by have := h.1 a a.2 b b.2; omega⟩
  have htrans : IsTrans S fun a b => compare a b ≤ 0 := ⟨fun a b c => h.2 a a.2 b b.2 c c.2⟩
  have hsort := List.map_insertionSort (fun a b : S => compare a b ≤ 0) (fun a b => compare a b ≤ 0) Subtype.val
    (l.attachWith (· ∈ S) hl) fun _ _ _ _ => Iff.rfl
  rw [List.attachWith_map_subtype_val] at hsort
  rw [← hsort, List.pairwise_map]
  exact List.pairwise_insertionSort _ _

/-- Elements between which the comparison makes no difference stay in their order. -/
theorem filter_insertionSort (r : α → α → Prop) [DecidableRel r] {l : List α} {P : α → Bool}
    (hP : ∀ a ∈ l, ∀ b ∈ l, P a → P b → r a b) : (l.insertionSort r).filter P = l.filter P := by
  have hpairwise : (l.filter P).Pairwise r := by
    refine List.Pairwise.imp_of_mem (R := fun _ _ => True) (fun {a b} ha hb _ => ?_) (List.pairwise_of_forall fun _ _ => trivial)
    obtain ⟨ha, hPa⟩ := List.mem_filter.mp ha
    obtain ⟨hb, hPb⟩ := List.mem_filter.mp hb
    exact hP a ha b hb hPa hPb
  have hsub := (List.sublist_insertionSort hpairwise List.filter_sublist).filter P
  rw [List.filter_filter] at hsub
  simp only [Bool.and_self] at hsub
  have hperm := (List.perm_insertionSort r l).filter P
  exact (hsub.eq_of_length hperm.length_eq.symm).symm

end

end TypeFerry.Lib.Comparison
